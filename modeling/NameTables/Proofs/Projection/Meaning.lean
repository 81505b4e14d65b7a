import Mathlib
import NameTables.Proofs.Projection.Failing
import NameTables.Proofs.Projection.Moved

/-! The meaning of a projection.
A projection is described entry by entry: which keys it has and in which order, and from which of
the entries that fall on a key its names come. It is the last one of them, even if it has no target
name and earlier ones had one.
-/

namespace NameTables

variable {n : Nat}

namespace Table

variable (table : Table n) (source target : Fin n)

/-- The name of a class in the source namespace, or else its own. -/
def sourceName (name : ClassName) : ClassName :=
  ((table.class? name).bind fun cls => cls.names.get source).getD name

/-- The namespace that entries move to, and the names of classes there. -/
def toSource : Rekey n := ⟨source, table.sourceName source⟩

/-- The classes that are called `owner` in the source namespace. -/
def classesCalled (owner : ClassName) : List (Class n) :=
  table.classes.values.filter fun cls => cls.names.get source = some owner

def fieldsCalled (owner : ClassName) : List (Field n) :=
  (table.classesCalled source owner).flatMap fun cls => cls.fields.values

def methodsCalled (owner : ClassName) : List (Method n) :=
  (table.classesCalled source owner).flatMap fun cls => cls.methods.values

/-- The fields that fall on a key. -/
def fieldsKeyed (owner : ClassName) (key : FieldKey) : List (Field n) :=
  (table.fieldsCalled source owner).filter fun field =>
    (table.toSource source).fieldKey? field = some key

/-- The methods that fall on a key. -/
def methodsKeyed (owner : ClassName) (key : MethodKey) : List (Method n) :=
  (table.methodsCalled source owner).filter fun method =>
    (table.toSource source).methodKey? method = some key

/-- The parameters of all methods that fall on a key. -/
def parametersKeyed (owner : ClassName) (key : MethodKey) : List (Parameter n) :=
  (table.methodsKeyed source owner key).flatMap fun method => method.parameters.values

def projectedField (owner : ClassName) (key : FieldKey) : Field 2 where
  descriptor := key.descriptor
  names := .pair (some key.name)
    ((table.fieldsKeyed source owner key).getLast?.bind fun field => field.names.get target)

/-- Unlike the others, a parameter has both names from the last one that falls on its index. -/
def projectedParameter (owner : ClassName) (key : MethodKey) (index : UInt64) : Parameter 2 where
  index
  names :=
    let last := ((table.parametersKeyed source owner key).filter fun parameter =>
      parameter.index = index).getLast?
    .pair (last.bind fun parameter => parameter.names.get source)
      (last.bind fun parameter => parameter.names.get target)

def projectedMethod (owner : ClassName) (key : MethodKey) : Method 2 where
  descriptor := key.descriptor
  names := .pair (some key.name)
    ((table.methodsKeyed source owner key).getLast?.bind fun method => method.names.get target)
  parameters := .ofKeys ((table.parametersKeyed source owner key).map Parameter.index)
    (table.projectedParameter source target owner key)

def projectedClass (owner : ClassName) : Class 2 where
  names := .pair (some owner)
    ((table.classesCalled source owner).getLast?.bind fun cls => cls.names.get target)
  fields := .ofKeys
    ((table.fieldsCalled source owner).filterMap (table.toSource source).fieldKey?)
    (table.projectedField source target owner)
  methods := .ofKeys
    ((table.methodsCalled source owner).filterMap (table.toSource source).methodKey?)
    (table.projectedMethod source target owner)

/-- All that a projection has, in its order. -/
def projected (labels : Labels 2) : Table 2 where
  labels
  classes := .ofKeys (table.classes.values.filterMap fun cls => cls.names.get source)
    (table.projectedClass source target)

end Table

-----------------------------------------------------------------------------------------
-- What is declared under one name
-----------------------------------------------------------------------------------------

theorem Declaration.namesAt?_of_owner_ne (path : Path) (declaration : Declaration n)
    (other : declaration.path.owner ≠ path.owner)
    : declaration.namesAt? path = none :=
  namesAt?_of_ne fun same => other (congrArg Path.owner same)

/-- What is declared on a key that may be another one, or none, counts only if it is the right
one.
-/
theorem Declaration.bind_namesAt? {κ : Type} [DecidableEq κ] {path : κ → Path}
    (injective : Function.Injective path) (names : ∀ key, Names n (path key).kind)
    (key? : Option κ) (key : κ)
    : (key?.bind fun key' => (Declaration.mk (path key') (names key')).namesAt? (path key))
      = if key? = some key then some (names key) else none := by
  have apart (key' : κ) (other : key' ≠ key)
      : (Declaration.mk (path key') (names key')).namesAt? (path key) = none :=
    namesAt?_of_ne fun paths_eq => other (injective paths_eq)
  rw [bind_eq_ite apart, namesAt?_self]

/-- Names of the items on the right key. -/
theorem filterMap_ite_eq_map_filter {α β : Type} {p : α → Prop} [DecidablePred p] (f : α → β)
    (items : List α)
    : (items.filterMap fun a => if p a then some (f a) else none)
      = (items.filter fun a => p a).map f := by
  rw [← List.filterMap_eq_map, List.filterMap_filter]
  simp

theorem Class.owner_of_mem_rekeyedIn {rekey : Rekey n} {owner : ClassName} {cls : Class n}
    {declared : Declaration n} (member : declared ∈ cls.rekeyedIn rekey owner)
    : declared.path.owner = owner := by
  simp only [rekeyedIn, Method.rekeyedAt, List.cons_append, List.mem_cons, List.mem_append,
    List.mem_filterMap, Option.map_eq_some_iff, List.mem_flatMap, List.mem_map] at member
  rcases member with rfl | ⟨_, _, _, _, rfl⟩ | ⟨_, _, _, _, rfl | ⟨_, _, rfl⟩⟩ <;> rfl

theorem Class.filterMap_rekeyedIn {β : Type} (told : Declaration n → Option β) (rekey : Rekey n)
    (owner : ClassName) (cls : Class n)
    : (cls.rekeyedIn rekey owner).filterMap told
      = (told ⟨.cls owner, cls.names⟩).toList
        ++ (cls.fields.values.filterMap fun field =>
            (rekey.fieldKey? field).bind fun key => told ⟨.field owner key, field.names⟩)
        ++ cls.methods.values.flatMap fun method =>
            (rekey.methodKey? method).toList.flatMap fun key =>
              (method.rekeyedAt owner key).filterMap told := by
  rw [rekeyedIn, List.filterMap_append, List.filterMap_cons, List.filterMap_filterMap]
  simp only [List.filterMap_flatMap, Option.bind_map, Function.comp_def]
  cases told ⟨.cls owner, cls.names⟩ <;> rfl

namespace Table

variable {table : Table n} {source target : Fin n}

/-- In a coherent table the names of classes in the source namespace are found by their keys. -/
theorem Coherent.ofTable_eq_toSource (coherent : table.Coherent)
    : Rekey.ofTable table source = table.toSource source :=
  congrArg (Rekey.mk source) (funext (Rekey.newName_ofTable coherent source))

variable (coherent : table.Coherent)

include coherent

theorem Coherent.rekeyed_eq_flatMap
    : table.rekeyed source
      = table.classes.values.flatMap fun cls =>
          (cls.names.get source).toList.flatMap fun owner =>
            cls.rekeyedIn (table.toSource source) owner := by
  rw [← coherent.ofTable_eq_toSource]
  exact table.rekeyed_eq_flatMap source

/-- What concerns a class is declared by those that are called like it. -/
theorem Coherent.filterMap_rekeyed {β : Type} {told : Declaration n → Option β} {owner : ClassName}
    (apart : ∀ declared, declared.path.owner ≠ owner → told declared = none)
    : (table.rekeyed source).filterMap told
      = (table.classesCalled source owner).flatMap fun cls =>
          (cls.rekeyedIn (table.toSource source) owner).filterMap told := by
  rw [coherent.rekeyed_eq_flatMap]
  apply filterMap_flatMap_keyed
  intro other different cls declared member
  apply apart
  rw [Class.owner_of_mem_rekeyedIn member]
  exact different

-----------------------------------------------------------------------------------------
-- Keys in their order
-----------------------------------------------------------------------------------------

/-- Members add no classes, so the classes stand in the order of the table. -/
theorem Coherent.owners_rekeyed
    : ((table.rekeyed source).map fun declared => declared.path.owner).eraseDups
      = (table.classes.values.filterMap fun cls => cls.names.get source).eraseDups := by
  rw [coherent.rekeyed_eq_flatMap]
  apply eraseDups_flatMap_keyed
  · exact fun _ _ => List.cons_ne_nil _ _
  · exact fun _ _ _ => Class.owner_of_mem_rekeyedIn

theorem Coherent.fieldKeys_rekeyed (owner : ClassName)
    : (table.rekeyed source).filterMap (fun declared => declared.path.fieldKey? owner)
      = (table.fieldsCalled source owner).filterMap (table.toSource source).fieldKey? := by
  rw [coherent.filterMap_rekeyed, fieldsCalled, List.filterMap_flatMap]
  · congr 1
    funext cls
    rw [Class.filterMap_rekeyedIn]
    simp [Method.rekeyedAt, Path.fieldKey?]
  · intro declared other
    rcases declared with ⟨path, _⟩
    cases path <;> simp_all [Path.fieldKey?, Path.owner]

/-- Parameters repeat the key of their method. -/
theorem Coherent.methodKeys_rekeyed (owner : ClassName)
    : ((table.rekeyed source).filterMap fun declared => declared.path.methodKey? owner).eraseDups
      = ((table.methodsCalled source owner).filterMap
          (table.toSource source).methodKey?).eraseDups := by
  have visits : (table.rekeyed source).filterMap (fun declared => declared.path.methodKey? owner)
      = (table.methodsCalled source owner).flatMap fun method =>
          ((table.toSource source).methodKey? method).toList.flatMap fun key =>
            key :: method.parameters.values.map fun _ => key := by
    rw [coherent.filterMap_rekeyed, methodsCalled, List.flatMap_assoc]
    · congr 1
      funext cls
      rw [Class.filterMap_rekeyedIn]
      simp [Method.rekeyedAt, Path.methodKey?, List.filterMap_eq_map']
    · intro declared other
      rcases declared with ⟨path, _⟩
      cases path <;> simp_all [Path.methodKey?, Path.owner]
  rw [visits, ← List.map_id (List.flatMap _ _)]
  apply eraseDups_flatMap_keyed
  · exact fun _ _ => List.cons_ne_nil _ _
  · intro key method key' member
    rcases List.mem_cons.mp member with rfl | repeated
    · rfl
    · obtain ⟨_, _, rfl⟩ := List.mem_map.mp repeated
      rfl

/-- What concerns a method is declared by those that fall on its key. -/
theorem Coherent.filterMap_rekeyed_keyed {β : Type} {told : Declaration n → Option β}
    (owner : ClassName) (key : MethodKey)
    (apart : ∀ declared, declared.path.methodKey? owner ≠ some key → told declared = none)
    : (table.rekeyed source).filterMap told
      = (table.methodsKeyed source owner key).flatMap fun method =>
          (method.rekeyedAt owner key).filterMap told := by
  have unowned : ∀ declared, declared.path.owner ≠ owner → told declared = none := by
    intro declared other
    apply apart
    rcases declared with ⟨path, _⟩
    cases path <;> simp_all [Path.methodKey?, Path.owner]
  have at_other (key' : MethodKey) (different : key' ≠ key) (method : Method n)
      : ∀ declared ∈ method.rekeyedAt owner key', told declared = none := by
    intro declared member
    apply apart
    rcases List.mem_cons.mp member with rfl | member
    · simpa [Path.methodKey?] using different
    · obtain ⟨parameter, _, rfl⟩ := List.mem_map.mp member
      simpa [Path.methodKey?] using different
  rw [coherent.filterMap_rekeyed unowned, methodsKeyed, methodsCalled, List.filter_flatMap,
    List.flatMap_assoc]
  congr 1
  funext cls
  have on_class : told ⟨.cls owner, cls.names⟩ = none := apart _ (by simp [Path.methodKey?])
  have on_field (key' : FieldKey) (field : Field n)
      : told ⟨.field owner key', field.names⟩ = none := apart _ (by simp [Path.methodKey?])
  rw [← filterMap_flatMap_keyed at_other, Class.filterMap_rekeyedIn, List.filterMap_flatMap]
  simp [on_class, on_field, List.filterMap_flatMap]

theorem Coherent.indices_rekeyed (owner : ClassName) (key : MethodKey)
    : (table.rekeyed source).filterMap (fun declared => declared.path.index? owner key)
      = (table.parametersKeyed source owner key).map Parameter.index := by
  rw [coherent.filterMap_rekeyed_keyed owner key, parametersKeyed, List.map_flatMap]
  · congr 1
    funext method
    simp [Method.rekeyedAt, Path.index?, List.filterMap_eq_map']
  · intro declared other
    rcases declared with ⟨path, _⟩
    cases path <;> simp_all [Path.index?, Path.methodKey?]

-----------------------------------------------------------------------------------------
-- The last names on a key
-----------------------------------------------------------------------------------------

theorem Coherent.lastDeclared?_cls (owner : ClassName)
    : lastDeclared? (table.rekeyed source) (.cls owner)
      = (table.classesCalled source owner).getLast?.map Class.names := by
  rw [lastDeclared?, coherent.filterMap_rekeyed, ← List.getLast?_map, List.map_eq_flatMap]
  · congr 2
    funext cls
    rw [Class.filterMap_rekeyedIn]
    simp [Method.rekeyedAt, Declaration.namesAt?_self, Declaration.namesAt?_of_ne]
  · exact Declaration.namesAt?_of_owner_ne (.cls owner)

theorem Coherent.lastDeclared?_field (owner : ClassName) (key : FieldKey)
    : lastDeclared? (table.rekeyed source) (.field owner key)
      = (table.fieldsKeyed source owner key).getLast?.map Field.names := by
  rw [lastDeclared?, coherent.filterMap_rekeyed, ← List.getLast?_map, fieldsKeyed, fieldsCalled,
    List.filter_flatMap, List.map_flatMap]
  · congr 2
    funext cls
    have at_key (field : Field n) := Declaration.bind_namesAt?
      (fun _ _ same => ((Path.field.injEq ..).mp same).2 : Function.Injective (Path.field owner))
      (fun _ => field.names) ((table.toSource source).fieldKey? field) key
    rw [Class.filterMap_rekeyedIn]
    simp [Method.rekeyedAt, at_key, Declaration.namesAt?_of_ne, filterMap_ite_eq_map_filter]
  · exact Declaration.namesAt?_of_owner_ne (.field owner key)

theorem Coherent.lastDeclared?_method (owner : ClassName) (key : MethodKey)
    : lastDeclared? (table.rekeyed source) (.method owner key)
      = (table.methodsKeyed source owner key).getLast?.map Method.names := by
  rw [lastDeclared?, coherent.filterMap_rekeyed_keyed owner key, ← List.getLast?_map,
    List.map_eq_flatMap]
  · congr 2
    funext method
    simp [Method.rekeyedAt, Declaration.namesAt?_self, Declaration.namesAt?_of_ne]
  · intro declared other
    apply Declaration.namesAt?_of_ne
    intro same
    simp [same, Path.methodKey?] at other

theorem Coherent.lastDeclared?_parameter (owner : ClassName) (key : MethodKey) (index : UInt64)
    : lastDeclared? (table.rekeyed source) (.parameter owner key index)
      = ((table.parametersKeyed source owner key).filter fun parameter =>
          parameter.index = index).getLast?.map Parameter.names := by
  rw [lastDeclared?, coherent.filterMap_rekeyed_keyed owner key, ← List.getLast?_map,
    parametersKeyed, List.filter_flatMap, List.map_flatMap]
  · congr 2
    funext method
    have at_index (parameter : Parameter n)
        : (Declaration.mk (.parameter owner key parameter.index) parameter.names).namesAt?
              (.parameter owner key index)
          = if parameter.index = index then some parameter.names else none := by
      have injective : Function.Injective (Path.parameter owner key) :=
        fun _ _ same => ((Path.parameter.injEq ..).mp same).2.2
      have at_key := Declaration.bind_namesAt? injective (fun _ => parameter.names)
        (some parameter.index) index
      simpa using at_key
    simp [Method.rekeyedAt, Declaration.namesAt?_of_ne, at_index, filterMap_ite_eq_map_filter]
  · intro declared other
    apply Declaration.namesAt?_of_ne
    intro same
    simp [same, Path.methodKey?] at other

-----------------------------------------------------------------------------------------
-- The projection, entry by entry
-----------------------------------------------------------------------------------------

variable {labels : Labels 2}

omit coherent in
/-- Keys of a projection stand in the order of their declarations. -/
theorem keys_projection {κ : Type} [DecidableEq κ] (keysOf : Table 2 → List κ)
    (used : Path → Option κ)
    (run
      : ∀ (table : Table 2) (edits : List (Edit 2)),
          keysOf (table.applyAll edits)
            = (keysOf table ++ edits.filterMap fun edit => used edit.path).eraseDups)
    (none_first : keysOf (Table.empty labels) = [])
    : keysOf (table.projection labels source target)
      = ((table.rekeyed source).filterMap fun declared => used declared.path).eraseDups := by
  rw [projection, declareAll_eq_applyAll, run, none_first, List.nil_append, List.map_map,
    List.filterMap_map]
  rfl

theorem Coherent.field?_projection {owner : ClassName} {key : FieldKey} {field : Field 2}
    (found : (table.projection labels source target).field? owner key = some field)
    : field = table.projectedField source target owner key := by
  have at_path : (table.projection labels source target).names? (.field owner key)
      = some field.names := by
    rw [names?_field, found]
    rfl
  rw [names?_projection, coherent.lastDeclared?_field, Option.map_map] at at_path
  obtain ⟨last, is_last, names_eq⟩ := Option.map_eq_some_iff.mp at_path
  have keyed : (table.toSource source).fieldKey? last = some key := by
    simpa using (List.mem_filter.mp (List.mem_of_getLast? is_last)).2
  obtain ⟨name, named, rfl⟩ := Option.map_eq_some_iff.mp keyed
  have named : last.names.get source = some name := named
  have descriptor_eq := (projection_coherent.field found).2
  obtain ⟨descriptor, names⟩ := field
  subst descriptor_eq names_eq
  rw [projectedField, is_last, Option.bind_some]
  simp [Names.onto, named]

theorem Coherent.parameter?_projection {owner : ClassName} {key : MethodKey} {index : UInt64}
    {parameter : Parameter 2}
    (found : (table.projection labels source target).parameter? owner key index = some parameter)
    : parameter = table.projectedParameter source target owner key index := by
  have at_path : (table.projection labels source target).names? (.parameter owner key index)
      = some parameter.names := by
    rw [names?_parameter, found]
    rfl
  rw [names?_projection, coherent.lastDeclared?_parameter, Option.map_map] at at_path
  obtain ⟨last, is_last, names_eq⟩ := Option.map_eq_some_iff.mp at_path
  have index_eq := projection_coherent.described.parameter found
  obtain ⟨index', names⟩ := parameter
  obtain rfl : names = last.names.onto source target := names_eq.symm
  obtain rfl : index' = index := index_eq
  simp only [projectedParameter, is_last, Option.bind_some]
  rfl

theorem Coherent.parametersOf_projection (owner : ClassName) (key : MethodKey)
    : (table.projection labels source target).parametersOf owner key
      = .ofKeys ((table.parametersKeyed source owner key).map Parameter.index)
          (table.projectedParameter source target owner key) := by
  apply OrderedMap.eq_ofKeys
  · rw [keys_projection (fun table => (table.parametersOf owner key).keys) (Path.index? owner key)
      (fun table edits => parameterIndices_applyAll table edits owner key) rfl,
      coherent.indices_rekeyed]
  · intro index parameter stored
    rw [← parameter?_eq] at stored
    exact coherent.parameter?_projection stored

theorem Coherent.method?_projection {owner : ClassName} {key : MethodKey} {method : Method 2}
    (found : (table.projection labels source target).method? owner key = some method)
    : method = table.projectedMethod source target owner key := by
  have at_path : (table.projection labels source target).names? (.method owner key)
      = some method.names := by
    rw [names?_method, found]
    rfl
  rw [names?_projection, coherent.lastDeclared?_method, Option.map_map] at at_path
  obtain ⟨last, is_last, names_eq⟩ := Option.map_eq_some_iff.mp at_path
  have keyed : (table.toSource source).methodKey? last = some key := by
    simpa using (List.mem_filter.mp (List.mem_of_getLast? is_last)).2
  obtain ⟨name, named, rfl⟩ := Option.map_eq_some_iff.mp keyed
  have named : last.names.get source = some name := named
  have descriptor_eq := (projection_coherent.method found).2
  have parameters_eq : (table.projection labels source target).parametersOf owner _ = _ :=
    coherent.parametersOf_projection owner
      ⟨name, last.descriptor.renamed (table.toSource source).newName⟩
  rw [parametersOf_of_method? found] at parameters_eq
  obtain ⟨descriptor, names, parameters⟩ := method
  subst descriptor_eq names_eq parameters_eq
  rw [projectedMethod, is_last, Option.bind_some]
  simp [Names.onto, named]

theorem Coherent.fieldsOf_projection (owner : ClassName)
    : (table.projection labels source target).fieldsOf owner
      = (table.projectedClass source target owner).fields := by
  apply OrderedMap.eq_ofKeys
  · rw [keys_projection (fun table => (table.fieldsOf owner).keys) (Path.fieldKey? owner)
      (fun table edits => fieldKeys_applyAll table edits owner) rfl, coherent.fieldKeys_rekeyed]
  · intro key field stored
    rw [← field?_eq] at stored
    exact coherent.field?_projection stored

theorem Coherent.methodsOf_projection (owner : ClassName)
    : (table.projection labels source target).methodsOf owner
      = (table.projectedClass source target owner).methods := by
  apply OrderedMap.eq_ofKeys
  · rw [keys_projection (fun table => (table.methodsOf owner).keys) (Path.methodKey? owner)
      (fun table edits => methodKeys_applyAll table edits owner) rfl, coherent.methodKeys_rekeyed]
  · intro key method stored
    rw [← method?_eq] at stored
    exact coherent.method?_projection stored

theorem Coherent.class?_projection {owner : ClassName} {cls : Class 2}
    (found : (table.projection labels source target).class? owner = some cls)
    : cls = table.projectedClass source target owner := by
  have at_path : (table.projection labels source target).names? (.cls owner)
      = some cls.names := by
    rw [names?_cls, found]
    rfl
  rw [names?_projection, coherent.lastDeclared?_cls, Option.map_map] at at_path
  obtain ⟨last, is_last, names_eq⟩ := Option.map_eq_some_iff.mp at_path
  have named : last.names.get source = some owner := by
    simpa using (List.mem_filter.mp (List.mem_of_getLast? is_last)).2
  have fields_eq : (table.projection labels source target).fieldsOf owner = _ :=
    coherent.fieldsOf_projection owner
  have methods_eq : (table.projection labels source target).methodsOf owner = _ :=
    coherent.methodsOf_projection owner
  rw [fieldsOf_of_class? found] at fields_eq
  rw [methodsOf_of_class? found] at methods_eq
  obtain ⟨names, fields, methods⟩ := cls
  subst names_eq fields_eq methods_eq
  simp [projectedClass, is_last, Names.onto, named]

/-- A projection is what its entries say. -/
theorem Coherent.projection_eq_projected
    : table.projection labels source target = table.projected source target labels := by
  have labels_eq : (table.projection labels source target).labels = labels := labels_projection
  have classes_eq : (table.projection labels source target).classes
      = (table.projected source target labels).classes := by
    apply OrderedMap.eq_ofKeys
    · have run (table : Table 2) (edits : List (Edit 2)) := classKeys_applyAll table edits
      simp only [← List.filterMap_eq_map'] at run
      rw [keys_projection (fun table => table.classes.keys) (fun path => some path.owner) run rfl,
        List.filterMap_eq_map', coherent.owners_rekeyed]
    · intro owner cls found
      exact coherent.class?_projection found
  cases made : table.projection labels source target
  rw [made] at labels_eq classes_eq
  rw [projected, ← labels_eq]
  congr 1

-----------------------------------------------------------------------------------------
-- All projections
-----------------------------------------------------------------------------------------

/-- A projection fails exactly when it is blocked, with the failure of what comes first, and else it
has exactly what its entries say.
-/
theorem project_means (source target : String)
    : ((∃ failure, table.project source target = .error failure) ↔ table.Blocked source target)
      ∧ (∀ failure,
          table.project source target = .error failure
          ↔ table.ProjectFails source target failure)
      ∧ (¬table.Blocked source target
        → ∃ sourceColumn targetColumn,
            table.labels.find? source = some sourceColumn
            ∧ table.labels.find? target = some targetColumn
            ∧ table.project source target
              = .ok (table.projected sourceColumn targetColumn ⟨#v[source, target]⟩)) := by
  refine ⟨exists_project_eq_error_iff, fun _ => project_eq_error_iff, fun unblocked => ?_⟩
  cases outcome : table.project source target with
  | error failure => exact absurd (exists_project_eq_error_iff.mp ⟨failure, outcome⟩) unblocked
  | ok result =>
      obtain ⟨sourceColumn, targetColumn, found, found', _, _, rfl⟩ := project_eq_ok outcome
      rw [coherent.projection_eq_projected]
      exact ⟨sourceColumn, targetColumn, found, found', rfl⟩

omit coherent

/-- Two classes with one intermediary name, of which the last one has no other name, and in them two
fields and two methods that fall together. A third class has an open descriptor, but no intermediary
name.
-/
def sharedKeys : Table 3 :=
  (Table.empty ⟨#v["obf", "intermediary", "named"]⟩).declareAll
    [⟨.cls ⟨"a"⟩, ⟨#v[some ⟨"a"⟩, some ⟨"K"⟩, some ⟨"Hello"⟩]⟩⟩,
      ⟨.field ⟨"a"⟩ ⟨⟨"x"⟩, some ⟨"La;"⟩⟩, ⟨#v[some ⟨"x"⟩, some ⟨"f"⟩, some ⟨"count"⟩]⟩⟩,
      ⟨.method ⟨"a"⟩ ⟨⟨"m"⟩, ⟨"(Lb;)V"⟩⟩, ⟨#v[some ⟨"m"⟩, some ⟨"g"⟩, some ⟨"run"⟩]⟩⟩,
      ⟨.parameter ⟨"a"⟩ ⟨⟨"m"⟩, ⟨"(Lb;)V"⟩⟩ 1, ⟨#v[none, some ⟨"p"⟩, some ⟨"second"⟩]⟩⟩,
      ⟨.parameter ⟨"a"⟩ ⟨⟨"m"⟩, ⟨"(Lb;)V"⟩⟩ 0, ⟨#v[none, none, some ⟨"first"⟩]⟩⟩,
      ⟨.cls ⟨"b"⟩, ⟨#v[some ⟨"b"⟩, some ⟨"K"⟩, none]⟩⟩,
      ⟨.field ⟨"b"⟩ ⟨⟨"y"⟩, some ⟨"Lb;"⟩⟩, ⟨#v[some ⟨"y"⟩, some ⟨"f"⟩, none]⟩⟩,
      ⟨.method ⟨"b"⟩ ⟨⟨"w"⟩, ⟨"(La;)V"⟩⟩, ⟨#v[some ⟨"w"⟩, some ⟨"g"⟩, some ⟨"walk"⟩]⟩⟩,
      ⟨.parameter ⟨"b"⟩ ⟨⟨"w"⟩, ⟨"(La;)V"⟩⟩ 1, ⟨#v[none, none, some ⟨"other"⟩]⟩⟩,
      ⟨.cls ⟨"c"⟩, ⟨#v[some ⟨"c"⟩, none, some ⟨"World"⟩]⟩⟩,
      ⟨.method ⟨"c"⟩ ⟨⟨"m"⟩, ⟨"(La)V"⟩⟩, ⟨#v[some ⟨"m"⟩, some ⟨"g"⟩, none]⟩⟩]

/-- The last of the entries on a key decides, and the open descriptor counts from the obfuscated
names alone.
-/
theorem project_means_sharedKeys
    : sharedKeys.Coherent
      ∧ sharedKeys.project "obf" "named"
        = .error (.ofOpen (.methodDescriptor ⟨"m"⟩ ⟨"c"⟩) ⟨"(La)V"⟩)
      ∧ sharedKeys.ProjectFails "obf" "named"
          (.ofOpen (.methodDescriptor ⟨"m"⟩ ⟨"c"⟩) ⟨"(La)V"⟩)
      ∧ ¬sharedKeys.Blocked "intermediary" "named"
      ∧ ∃ result,
          sharedKeys.project "intermediary" "named" = .ok result
          ∧ result = sharedKeys.projected 1 2 ⟨#v["intermediary", "named"]⟩
          ∧ result.names? (.cls ⟨"K"⟩) = some (.pair (some ⟨"K"⟩) none)
          ∧ result.names? (.field ⟨"K"⟩ ⟨⟨"f"⟩, some ⟨"LK;"⟩⟩) = some (.pair (some ⟨"f"⟩) none)
          ∧ result.names? (.method ⟨"K"⟩ ⟨⟨"g"⟩, ⟨"(LK;)V"⟩⟩)
            = some (.pair (some ⟨"g"⟩) (some ⟨"walk"⟩))
          ∧ (result.parametersOf ⟨"K"⟩ ⟨⟨"g"⟩, ⟨"(LK;)V"⟩⟩).keys = [1, 0]
          ∧ result.names? (.parameter ⟨"K"⟩ ⟨⟨"g"⟩, ⟨"(LK;)V"⟩⟩ 1)
            = some (.pair none (some ⟨"other"⟩)) := by
  have coherent : sharedKeys.Coherent := by
    apply declareAll_coherent _ (by decide)
    simp [Path.Fits, Names.first?]
  have fails : sharedKeys.project "obf" "named"
      = .error (.ofOpen (.methodDescriptor ⟨"m"⟩ ⟨"c"⟩) ⟨"(La)V"⟩) := by
    cbv
  have succeeds : sharedKeys.project "intermediary" "named"
      = .ok ((Table.empty ⟨#v["intermediary", "named"]⟩).declareAll
          [⟨.cls ⟨"K"⟩, .pair (some ⟨"K"⟩) none⟩,
            ⟨.field ⟨"K"⟩ ⟨⟨"f"⟩, some ⟨"LK;"⟩⟩, .pair (some ⟨"f"⟩) none⟩,
            ⟨.method ⟨"K"⟩ ⟨⟨"g"⟩, ⟨"(LK;)V"⟩⟩, .pair (some ⟨"g"⟩) (some ⟨"walk"⟩)⟩,
            ⟨.parameter ⟨"K"⟩ ⟨⟨"g"⟩, ⟨"(LK;)V"⟩⟩ 1, .pair none (some ⟨"other"⟩)⟩,
            ⟨.parameter ⟨"K"⟩ ⟨⟨"g"⟩, ⟨"(LK;)V"⟩⟩ 0, .pair none (some ⟨"first"⟩)⟩]) := by
    cbv
  obtain ⟨_, failing, _⟩ := project_means coherent "obf" "named"
  obtain ⟨blocked, _, meaning⟩ := project_means coherent "intermediary" "named"
  have unblocked : ¬sharedKeys.Blocked "intermediary" "named" := by
    rw [← blocked, succeeds]
    simp
  obtain ⟨column, column', found, found', again⟩ := meaning unblocked
  have same := Except.ok.inj (succeeds.symm.trans again)
  obtain rfl : (1 : Fin 3) = column := by
    have here : sharedKeys.labels.find? "intermediary" = some 1 := by decide
    exact Option.some.inj (here.symm.trans found)
  obtain rfl : (2 : Fin 3) = column' := by
    have here : sharedKeys.labels.find? "named" = some 2 := by decide
    exact Option.some.inj (here.symm.trans found')
  exact ⟨coherent, fails, (failing _).mp fails, unblocked, _, succeeds, same, by decide, by decide,
    by decide, by decide, by decide⟩

end Table

end NameTables
