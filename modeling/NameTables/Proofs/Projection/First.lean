import NameTables.Proofs.Projection.Moved

/-! Projections from the first namespace.
The keys of a coherent table are made of the names in its first namespace, so a projection from
there moves no entry. Each entry stays under its key and keeps two of its names. So a projection
onto the namespaces that a table has is the table.
-/

namespace NameTables

variable {n : Nat}

/-- Values that move to the keys that they have stay under them. -/
theorem OrderedMap.rekeyed_eq_map {κ α β : Type} [DecidableEq κ] {m : OrderedMap κ α}
    {key? : α → Option κ} {change : α → β}
    (keyed : ∀ key a, m.get? key = some a → key? a = some key)
    : m.rekeyed key? change = m.map change := by
  apply ext
  rw [entries_rekeyed (filterMap_values keyed ▸ m.keys_nodup), values, List.filterMap_map]
  change _ = m.entries.map fun entry => (entry.1, change entry.2)
  rw [← List.filterMap_eq_map]
  apply List.filterMap_congr
  intro entry listed
  have stored := (m.get?_eq_some_iff entry.1 entry.2).mpr listed
  simp [keyed _ _ stored]

def Field.onto (source target : Fin n) (field : Field n) : Field 2 :=
  ⟨field.descriptor, field.names.onto source target⟩

def Method.onto (source target : Fin n) (method : Method n) : Method 2 :=
  ⟨method.descriptor, method.names.onto source target,
    method.parameters.map (.onto source target)⟩

def Class.onto (source target : Fin n) (cls : Class n) : Class 2 where
  names := cls.names.onto source target
  fields := cls.fields.map (.onto source target)
  methods := cls.methods.map (.onto source target)

/-- All entries under the keys that they have, with two of their names. -/
def Table.onto (table : Table n) (labels : Labels 2) (source target : Fin n) : Table 2 where
  labels := labels
  classes := table.classes.map (.onto source target)

namespace Table

variable {table : Table n} {labels : Labels 2} {target : Fin n}

section First

variable (coherent : table.Coherent) (positive : 0 < n)

include coherent

theorem Coherent.field_keyed {cls : Class n} (listed : cls ∈ table.classes.values)
    {key : FieldKey} {field : Field n} (inside : cls.fields.get? key = some field)
    : (Rekey.ofTable table ⟨0, positive⟩).fieldKey? field = some key := by
  obtain ⟨owner, stored⟩ := OrderedMap.mem_values_iff.mp listed
  have found : table.field? owner key = some field :=
    Option.bind_eq_some_iff.mpr ⟨cls, stored, inside⟩
  exact Rekey.fieldKey?_first coherent positive found

theorem Coherent.method_keyed {cls : Class n} (listed : cls ∈ table.classes.values)
    {key : MethodKey} {method : Method n} (inside : cls.methods.get? key = some method)
    : (Rekey.ofTable table ⟨0, positive⟩).methodKey? method = some key := by
  obtain ⟨owner, stored⟩ := OrderedMap.mem_values_iff.mp listed
  have found : table.method? owner key = some method :=
    Option.bind_eq_some_iff.mpr ⟨cls, stored, inside⟩
  exact Rekey.methodKey?_first coherent positive found

theorem Coherent.keysApart_first : table.KeysApart ⟨0, positive⟩ where
  classes := by
    rw [OrderedMap.filterMap_values fun owner cls => coherent.get_first positive]
    exact table.classes.keys_nodup
  fields cls listed := by
    rw [OrderedMap.filterMap_values fun key field => coherent.field_keyed positive listed]
    exact cls.fields.keys_nodup
  methods cls listed := by
    rw [OrderedMap.filterMap_values fun key method => coherent.method_keyed positive listed]
    exact cls.methods.keys_nodup

/-- No entry of a coherent table moves when the first namespace is kept. -/
theorem Coherent.moved_first
    : table.moved labels ⟨0, positive⟩ target = table.onto labels ⟨0, positive⟩ target := by
  let rekey := Rekey.ofTable table ⟨0, positive⟩
  have renamed_eq : Descriptor.renamed rekey.newName = id :=
    funext (Rekey.renamed_first coherent positive)
  have field_eq : Field.moved rekey target = Field.onto ⟨0, positive⟩ target := by
    funext field
    rw [Field.moved, renamed_eq, Option.map_id]
    rfl
  have method_eq : Method.moved rekey target = Method.onto ⟨0, positive⟩ target := by
    funext method
    rw [Method.moved, renamed_eq]
    rfl
  have class_eq (cls : Class n) (listed : cls ∈ table.classes.values)
      : cls.moved rekey target = cls.onto ⟨0, positive⟩ target := by
    rw [Class.moved, field_eq, method_eq,
      OrderedMap.rekeyed_eq_map fun key field => coherent.field_keyed positive listed,
      OrderedMap.rekeyed_eq_map fun key method => coherent.method_keyed positive listed]
    rfl
  rw [moved, OrderedMap.rekeyed_eq_map fun owner cls => coherent.get_first positive,
    OrderedMap.map_congr class_eq, onto]

/-- A projection from the first namespace keeps all entries under their keys. -/
theorem Coherent.projection_first
    : table.projection labels ⟨0, positive⟩ target = table.onto labels ⟨0, positive⟩ target := by
  rw [projection_eq_moved coherent (coherent.keysApart_first positive),
    coherent.moved_first positive]

end First

section Kept

variable {source target' : Fin n}

theorem fields_onto
    : (table.onto labels source target).fields = table.fields.map (.onto source target) := by
  simp [onto, fields, Class.onto, List.flatMap_map, List.map_flatMap]

theorem methods_onto
    : (table.onto labels source target).methods = table.methods.map (.onto source target) := by
  simp [onto, methods, Class.onto, List.flatMap_map, List.map_flatMap]

/-- Every entry keeps the same two of its names. -/
theorem namesOf_onto (kind : Kind)
    : (table.onto labels source target).namesOf kind
      = (table.namesOf kind).map fun names => names.onto source target := by
  cases kind with
  | cls => simp [namesOf, onto, Class.onto, Function.comp_def]
  | field => simp [namesOf, fields_onto, Field.onto, Function.comp_def]
  | method => simp [namesOf, methods_onto, Method.onto, Function.comp_def]
  | parameter =>
      simp [namesOf, parameters, methods_onto, Method.onto, Parameter.onto, List.flatMap_map,
        List.map_flatMap, Function.comp_def]

/-- The target namespace matters unless every entry has the same name, or none, in both. -/
theorem onto_eq_onto_iff
    : table.onto labels source target = table.onto labels source target'
      ↔ ∀ kind, ∀ names ∈ table.namesOf kind, names.get target = names.get target' := by
  constructor
  · intro same kind names listed
    have names_eq := congrArg (fun table => table.namesOf kind) same
    rw [namesOf_onto, namesOf_onto, List.map_inj_left] at names_eq
    exact congrArg Names.target (names_eq names listed)
  · intro same
    -- All entries are listed for the table, so a map is kept when the entries below it are.
    have names_eq (kind : Kind) {names : Names n kind} (listed : names ∈ table.namesOf kind)
        : names.onto source target = names.onto source target' := by
      rw [Names.onto, Names.onto, same kind names listed]
    have fields_eq (cls : Class n) (listed : cls ∈ table.classes.values)
        : cls.fields.map (Field.onto source target)
          = cls.fields.map (.onto source target') := by
      apply OrderedMap.map_congr
      intro field among
      have member : field ∈ table.fields := List.mem_flatMap.mpr ⟨cls, listed, among⟩
      rw [Field.onto, Field.onto, names_eq .field (List.mem_map_of_mem member)]
    have methods_eq (cls : Class n) (listed : cls ∈ table.classes.values)
        : cls.methods.map (Method.onto source target)
          = cls.methods.map (.onto source target') := by
      apply OrderedMap.map_congr
      intro method among
      have member : method ∈ table.methods := List.mem_flatMap.mpr ⟨cls, listed, among⟩
      have parameters_eq : method.parameters.map (Parameter.onto source target)
          = method.parameters.map (.onto source target') := by
        apply OrderedMap.map_congr
        intro parameter below
        have inside : parameter ∈ table.parameters := List.mem_flatMap.mpr ⟨method, member, below⟩
        rw [Parameter.onto, Parameter.onto,
          names_eq .parameter (List.mem_map_of_mem inside)]
      rw [Method.onto, Method.onto, parameters_eq,
        names_eq .method (List.mem_map_of_mem member)]
    have classes_eq : table.classes.map (Class.onto source target)
        = table.classes.map (.onto source target') := by
      apply OrderedMap.map_congr
      intro cls listed
      rw [Class.onto, Class.onto, fields_eq cls listed, methods_eq cls listed,
        names_eq .cls (List.mem_map_of_mem listed)]
    rw [onto, onto, classes_eq]

end Kept

/-- Two names are all that a table with two namespaces has. -/
theorem onto_self (own : Table 2) : own.onto own.labels 0 1 = own := by
  have names_eq {kind : Kind} (names : Names 2 kind) : names.onto 0 1 = names :=
    Names.ext_get fun i => match i with
      | 0 => rfl
      | 1 => rfl
  have field_eq (field : Field 2) : field.onto 0 1 = field := by
    rw [Field.onto, names_eq]
  have parameter_eq (parameter : Parameter 2) : parameter.onto 0 1 = parameter := by
    rw [Parameter.onto, names_eq]
  have method_eq (method : Method 2) : method.onto 0 1 = method := by
    rw [Method.onto, names_eq, OrderedMap.map_congr fun p _ => parameter_eq p, OrderedMap.map_id]
  have class_eq (cls : Class 2) : cls.onto 0 1 = cls := by
    rw [Class.onto, names_eq, OrderedMap.map_congr fun f _ => field_eq f, OrderedMap.map_id,
      OrderedMap.map_congr fun m _ => method_eq m, OrderedMap.map_id]
  rw [onto, OrderedMap.map_congr fun cls _ => class_eq cls, OrderedMap.map_id]

/-- A coherent table is its own projection. -/
theorem Coherent.projection_self {own : Table 2} (coherent : own.Coherent)
    : own.projection own.labels 0 1 = own :=
  (coherent.projection_first (by decide)).trans own.onto_self

-----------------------------------------------------------------------------------------
-- The first two namespaces
-----------------------------------------------------------------------------------------

/-- All entries under the keys that they have, with their names in two namespaces. -/
def keeping (table : Table n) (source target : Fin n) : Table 2 :=
  table.onto ⟨#v[table.labels.texts.get source, table.labels.texts.get target]⟩ source target

section FirstTwo

variable (coherent : table.Coherent) (two : 2 ≤ n)

include coherent

theorem Coherent.keeping_eq_projection
    : table.keeping (.castLE two 0) (.castLE two 1)
      = table.projection
          ⟨#v[table.labels.texts.get (.castLE two 0), table.labels.texts.get (.castLE two 1)]⟩
          (.castLE two 0) (.castLE two 1) :=
  (coherent.projection_first (Nat.lt_of_lt_of_le Nat.zero_lt_two two)).symm

/-- With one label for both, the second namespace is out of reach. Its names are then lost, unless
the first one has the same.
-/
theorem Coherent.eq_keeping_iff {result : Table 2}
    (projected
      : table.project (table.labels.texts.get (.castLE two 0))
          (table.labels.texts.get (.castLE two 1))
        = .ok result)
    : result = table.keeping (.castLE two 0) (.castLE two 1)
      ↔ table.labels.texts.get (.castLE two 0) ≠ table.labels.texts.get (.castLE two 1)
        ∨ ∀ kind, ∀ names ∈ table.namesOf kind,
            names.get (.castLE two 0) = names.get (.castLE two 1) := by
  have positive : 0 < n := Nat.lt_of_lt_of_le Nat.zero_lt_two two
  obtain ⟨source, target, found_source, found_target, _, _, rfl⟩ := project_eq_ok projected
  obtain rfl : ⟨0, positive⟩ = source :=
    Option.some.inj ((table.labels.find?_first positive).symm.trans found_source)
  obtain rfl := Option.some.inj ((table.labels.find?_second two).symm.trans found_target)
  rw [coherent.projection_first positive]
  change table.onto ⟨#v[_, _]⟩ (.castLE two 0) _ = _ ↔ _
  rw [keeping, onto_eq_onto_iff]
  by_cases same
      : table.labels.texts.get (.castLE two 0) = table.labels.texts.get (.castLE two 1)
  · simp [same]
  · simp [same]

end FirstTwo

end Table

end NameTables
