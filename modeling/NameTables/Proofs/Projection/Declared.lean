import NameTables.Projection
import NameTables.Proofs.Table.Content
import NameTables.Proofs.Table.Rekeys

/-! What a projection declares.
Each entry declares its names under its key in the source namespace, and a projection keeps two of
these names. So projections of one table from one namespace differ in nothing but the names that
they keep. With its namespaces there, only an open descriptor or an empty name of a parameter can
stop a projection.
-/

namespace NameTables

variable {n : Nat}

/-- The names in two of the namespaces. -/
def Names.onto {kind : Kind} (names : Names n kind) (source target : Fin n) : Names 2 kind :=
  .pair (names.get source) (names.get target)

def Declaration.onto (declaration : Declaration n) (source target : Fin n) : Declaration 2 :=
  ⟨declaration.path, declaration.names.onto source target⟩

/-- What an entry declares under its new key, with all its names. -/
def Entry.rekeyed? (rekey : Rekey n) : Entry n → Option (Declaration n)
  | .cls c => do
      let owner ← c.names.get rekey.column
      return ⟨.cls owner, c.names⟩
  | .field c f => do
      let owner ← c.names.get rekey.column
      let key ← rekey.fieldKey? f
      return ⟨.field owner key, f.names⟩
  | .method c m => do
      let owner ← c.names.get rekey.column
      let key ← rekey.methodKey? m
      return ⟨.method owner key, m.names⟩
  | .parameter c m p => do
      let owner ← c.names.get rekey.column
      let key ← rekey.methodKey? m
      return ⟨.parameter owner key p.index, p.names⟩

/-- All entries under their new keys, in the order of the table. -/
def Table.rekeyed (table : Table n) (source : Fin n) : List (Declaration n) :=
  table.entries.filterMap (Entry.rekeyed? (.ofTable table source))

theorem Names.ofPair_eq_ok_iff {kind : Kind} {source target : Option (Name kind)}
    {names : Names 2 kind}
    : ofPair source target = .ok names
      ↔ (source ≠ some ⟨""⟩ ∧ target ≠ some ⟨""⟩) ∧ names = pair source target := by
  have nonempty
      : some "" ∈ #v[source, target].toList.map (·.map Name.text)
        ↔ ¬(source ≠ some ⟨""⟩ ∧ target ≠ some ⟨""⟩) := by
    have text_eq (name : Option (Name kind))
        : some "" = name.map Name.text ↔ name = some ⟨""⟩ := by
      rw [eq_comm, Option.map_eq_some_iff]
      exact ⟨fun ⟨⟨_⟩, found, same⟩ => same ▸ found, fun found => ⟨_, found, rfl⟩⟩
    change some "" ∈ [source.map Name.text, target.map Name.text] ↔ _
    simp only [List.mem_cons, List.not_mem_nil, or_false, text_eq]
    grind
  unfold ofPair ofSlots
  dsimp only
  split
  · next empty => simp [Outcome.fail, nonempty.mp empty]
  · next filled =>
    have both := Classical.not_not.mp (mt nonempty.mpr filled)
    rw [Except.ok.injEq, eq_comm, and_iff_right both, pair]

/-- An entry is projected to what it declares, less the other names. -/
theorem Entry.projected_eq_ok {rekey : Rekey n} {target : Fin n} {entry : Entry n}
    {declared? : Option (Declaration 2)} (projected : entry.projected rekey target = .ok declared?)
    : declared? = (entry.rekeyed? rekey).map fun declared =>
        declared.onto rekey.column target := by
  cases entry with
  | cls c =>
      obtain rfl := Except.ok.inj projected
      change (c.names.get rekey.column).bind _ = _
      cases named : c.names.get rekey.column with
      | none => simp [rekeyed?, named]
      | some owner => simp [rekeyed?, named, Declaration.onto, Names.onto]
  | field c f =>
      obtain ⟨key?, keyed, same⟩ := Outcome.bind_eq_ok_iff.mp projected
      obtain rfl := Except.ok.inj same
      obtain ⟨_, rfl⟩ := rekey.fieldKey_eq_ok_iff.mp keyed
      cases owned : c.names.get rekey.column with
      | none => simp [rekeyed?, owned]
      | some owner =>
          cases named : f.names.get rekey.column with
          | none => simp [rekeyed?, owned, Rekey.fieldKey?, named]
          | some name =>
              simp [rekeyed?, owned, Rekey.fieldKey?, named, Declaration.onto, Names.onto]
  | method c m =>
      obtain ⟨key?, keyed, same⟩ := Outcome.bind_eq_ok_iff.mp projected
      obtain rfl := Except.ok.inj same
      obtain ⟨_, rfl⟩ := rekey.methodKey_eq_ok_iff.mp keyed
      cases owned : c.names.get rekey.column with
      | none => simp [rekeyed?, owned]
      | some owner =>
          cases named : m.names.get rekey.column with
          | none => simp [rekeyed?, owned, Rekey.methodKey?, named]
          | some name =>
              simp [rekeyed?, owned, Rekey.methodKey?, named, Declaration.onto, Names.onto]
  | parameter c m p =>
      obtain ⟨key?, keyed, rest⟩ := Outcome.bind_eq_ok_iff.mp projected
      obtain ⟨_, rfl⟩ := rekey.methodKey_eq_ok_iff.mp keyed
      rw [rekeyed?]
      cases owned : c.names.get rekey.column with
      | none =>
          rw [owned] at rest
          exact (Except.ok.inj rest).symm
      | some owner =>
          cases keyed : rekey.methodKey? m with
          | none =>
              rw [owned, keyed] at rest
              exact (Except.ok.inj rest).symm
          | some key =>
              rw [owned, keyed] at rest
              obtain ⟨names, made, same⟩ := Outcome.bind_eq_ok_iff.mp rest
              obtain rfl := Except.ok.inj same
              obtain ⟨_, rfl⟩ := Names.ofPair_eq_ok_iff.mp made
              rfl

-----------------------------------------------------------------------------------------
-- What is declared under new keys
-----------------------------------------------------------------------------------------

namespace Table

variable {table : Table n} {source target : Fin n}

/-- What is declared under new keys: a class that has a name, in it the members that have one, and
in these methods all parameters.
-/
theorem mem_rekeyed_iff {declared : Declaration n}
    : declared ∈ table.rekeyed source
      ↔ ∃ cls ∈ table.classes.values, ∃ owner, cls.names.get source = some owner
          ∧ (declared = ⟨.cls owner, cls.names⟩
            ∨ (∃ field ∈ cls.fields.values, ∃ key,
                (Rekey.ofTable table source).fieldKey? field = some key
                ∧ declared = ⟨.field owner key, field.names⟩)
            ∨ ∃ method ∈ cls.methods.values, ∃ key,
                (Rekey.ofTable table source).methodKey? method = some key
                ∧ (declared = ⟨.method owner key, method.names⟩
                  ∨ ∃ parameter ∈ method.parameters.values,
                      declared = ⟨.parameter owner key parameter.index, parameter.names⟩)) := by
  have column_eq : (Rekey.ofTable table source).column = source := rfl
  simp only [rekeyed, entries, Class.entries, Method.entries, List.mem_filterMap,
    List.mem_flatMap, List.mem_append, List.mem_cons, List.mem_map]
  constructor
  · intro given
    rcases given with ⟨_, ⟨cls, listed, (rfl | ⟨field, among, rfl⟩)
      | ⟨method, among, rfl | ⟨parameter, inside, rfl⟩⟩⟩, found⟩
    · obtain ⟨owner, owned, same⟩ := Option.bind_eq_some_iff.mp found
      exact ⟨cls, listed, owner, owned, Or.inl (Option.some.inj same).symm⟩
    · obtain ⟨owner, owned, found⟩ := Option.bind_eq_some_iff.mp found
      obtain ⟨key, keyed, same⟩ := Option.bind_eq_some_iff.mp found
      exact ⟨cls, listed, owner, owned,
        Or.inr (Or.inl ⟨field, among, key, keyed, (Option.some.inj same).symm⟩)⟩
    · obtain ⟨owner, owned, found⟩ := Option.bind_eq_some_iff.mp found
      obtain ⟨key, keyed, same⟩ := Option.bind_eq_some_iff.mp found
      exact ⟨cls, listed, owner, owned,
        Or.inr (Or.inr ⟨method, among, key, keyed, Or.inl (Option.some.inj same).symm⟩)⟩
    · obtain ⟨owner, owned, found⟩ := Option.bind_eq_some_iff.mp found
      obtain ⟨key, keyed, same⟩ := Option.bind_eq_some_iff.mp found
      exact ⟨cls, listed, owner, owned, Or.inr (Or.inr ⟨method, among, key, keyed,
        Or.inr ⟨parameter, inside, (Option.some.inj same).symm⟩⟩)⟩
  · intro given
    rcases given with ⟨cls, listed, owner, owned, rfl | ⟨field, among, key, keyed, rfl⟩
      | ⟨method, among, key, keyed, rfl | ⟨parameter, inside, rfl⟩⟩⟩
    · exact ⟨.cls cls, ⟨cls, listed, Or.inl (Or.inl rfl)⟩, by
        simp [Entry.rekeyed?, column_eq, owned]⟩
    · exact ⟨.field cls field, ⟨cls, listed, Or.inl (Or.inr ⟨field, among, rfl⟩)⟩, by
        simp [Entry.rekeyed?, column_eq, owned, keyed]⟩
    · exact ⟨.method cls method, ⟨cls, listed, Or.inr ⟨method, among, Or.inl rfl⟩⟩, by
        simp [Entry.rekeyed?, column_eq, owned, keyed]⟩
    · exact ⟨.parameter cls method parameter,
        ⟨cls, listed, Or.inr ⟨method, among, Or.inr ⟨parameter, inside, rfl⟩⟩⟩, by
          simp [Entry.rekeyed?, column_eq, owned, keyed]⟩

/-- Keys repeat the names that are kept for the source namespace. -/
theorem fits_of_mem_rekeyed {declared : Declaration n} (member : declared ∈ table.rekeyed source)
    (target : Fin n)
    : declared.path.Fits (declared.names.onto source target) := by
  have first {kind : Kind} {names : Names n kind} {name : Name kind}
      (named : names.get source = some name)
      : (names.onto source target).first? = some name :=
    (Names.source_eq_first? _).symm.trans named
  obtain ⟨cls, _, owner, owned, rfl | ⟨field, _, key, keyed, rfl⟩
    | ⟨method, _, key, keyed, rfl | ⟨parameter, _, rfl⟩⟩⟩ := mem_rekeyed_iff.mp member
  · exact first owned
  · obtain ⟨name, named, rfl⟩ := Option.map_eq_some_iff.mp keyed
    exact first named
  · obtain ⟨name, named, rfl⟩ := Option.map_eq_some_iff.mp keyed
    exact first named
  · trivial

/-- Classes are declared with their members, and methods with their parameters. -/
theorem ownersDeclared_rekeyed : OwnersDeclared (table.rekeyed source) := by
  intro declared member above_path above
  obtain ⟨cls, listed, owner, owned, rfl | ⟨field, _, key, _, rfl⟩
    | ⟨method, among, key, keyed, rfl | ⟨parameter, _, rfl⟩⟩⟩ := mem_rekeyed_iff.mp member
  all_goals have on_class : (⟨.cls owner, cls.names⟩ : Declaration n) ∈ table.rekeyed source :=
    mem_rekeyed_iff.mpr ⟨cls, listed, owner, owned, Or.inl rfl⟩
  · simp [Path.above] at above
  · obtain rfl := List.mem_singleton.mp above
    exact List.mem_map_of_mem (f := Declaration.path) on_class
  · obtain rfl := List.mem_singleton.mp above
    exact List.mem_map_of_mem (f := Declaration.path) on_class
  · have on_method
        : (⟨.method owner key, method.names⟩ : Declaration n) ∈ table.rekeyed source :=
      mem_rekeyed_iff.mpr ⟨cls, listed, owner, owned,
        Or.inr (Or.inr ⟨method, among, key, keyed, Or.inl rfl⟩)⟩
    rcases List.mem_cons.mp above with rfl | above
    · exact List.mem_map_of_mem (f := Declaration.path) on_class
    · obtain rfl := List.mem_singleton.mp above
      exact List.mem_map_of_mem (f := Declaration.path) on_method

-----------------------------------------------------------------------------------------
-- The table that a projection makes
-----------------------------------------------------------------------------------------

/-- What the entries declare under new keys, less all names but two. -/
def projection (table : Table n) (labels : Labels 2) (source target : Fin n) : Table 2 :=
  (Table.empty labels).declareAll ((table.rekeyed source).map fun declared =>
    declared.onto source target)

/-- A projection that succeeds does so at every entry, and makes what the entries declare. -/
theorem project_eq_ok {table : Table n} {source target : String} {result : Table 2}
    (succeeds : table.project source target = .ok result)
    : ∃ sourceColumn targetColumn,
        table.labels.find? source = some sourceColumn
        ∧ table.labels.find? target = some targetColumn
        ∧ (source ≠ "" ∧ target ≠ "")
        ∧ (∀ entry ∈ table.entries, ∃ declared?,
            entry.projected (.ofTable table sourceColumn) targetColumn = .ok declared?)
        ∧ result = table.projection ⟨#v[source, target]⟩ sourceColumn targetColumn := by
  unfold project at succeeds
  obtain ⟨sourceColumn, found_source, succeeds⟩ := Outcome.bind_eq_ok_iff.mp succeeds
  obtain ⟨targetColumn, found_target, succeeds⟩ := Outcome.bind_eq_ok_iff.mp succeeds
  obtain ⟨labels, labelled, succeeds⟩ := Outcome.bind_eq_ok_iff.mp succeeds
  obtain ⟨declarations, projected, succeeds⟩ := Outcome.bind_eq_ok_iff.mp succeeds
  obtain ⟨nonempty, rfl⟩ := Labels.pair_eq_ok_iff.mp labelled
  refine ⟨sourceColumn, targetColumn, Labels.resolve_eq_ok_iff.mp found_source,
    Labels.resolve_eq_ok_iff.mp found_target, nonempty,
    Outcome.exists_mapM_eq_ok_iff.mp ⟨_, projected⟩, ?_⟩
  have declarations_eq := Outcome.eq_map_of_mapM_eq_ok
    (fun entry declared? => Entry.projected_eq_ok) projected
  rw [← Except.ok.inj succeeds, declarations_eq, List.filterMap_map, projection, rekeyed,
    List.map_filterMap]
  rfl

theorem map_path_onto (declarations : List (Declaration n))
    : (declarations.map fun declared => declared.onto source target).map Declaration.path
      = declarations.map Declaration.path := by
  rw [List.map_map]
  rfl

theorem lastDeclared?_onto (declarations : List (Declaration n)) (path : Path)
    : lastDeclared? (declarations.map fun declared => declared.onto source target) path
      = (lastDeclared? declarations path).map fun names => names.onto source target := by
  have at_path (declared : Declaration n)
      : (declared.onto source target).namesAt? path
        = (declared.namesAt? path).map fun names => names.onto source target := by
    obtain ⟨declared_path, names⟩ := declared
    by_cases same : declared_path = path
    · subst same
      simp [Declaration.namesAt?, Declaration.onto]
    · simp [Declaration.namesAt?, Declaration.onto, same]
  rw [lastDeclared?, lastDeclared?, List.filterMap_map, ← List.getLast?_map, List.map_filterMap]
  congr 2
  funext declared
  exact at_path declared

variable {labels : Labels 2}

/-- The names are two of those that were declared last under the key. -/
theorem names?_projection (path : Path)
    : (table.projection labels source target).names? path
      = (lastDeclared? (table.rekeyed source) path).map fun names =>
          names.onto source target := by
  have closed : OwnersDeclared ((table.rekeyed source).map fun declared =>
      declared.onto source target) := by
    intro declared member owner above
    obtain ⟨before, listed, rfl⟩ := List.mem_map.mp member
    rw [map_path_onto]
    exact ownersDeclared_rekeyed before listed owner above
  rw [projection, names?_declareAll labels closed, lastDeclared?_onto]

/-- Projections are coherent, whatever the table is. -/
theorem projection_coherent : (table.projection labels source target).Coherent := by
  apply declareAll_coherent labels (by decide)
  intro declared member
  obtain ⟨before, listed, rfl⟩ := List.mem_map.mp member
  exact fits_of_mem_rekeyed listed target

theorem labels_projection : (table.projection labels source target).labels = labels :=
  labels_declareAll labels _

/-- The target namespace has no part in the keys. -/
theorem sameKeys_projection (labels' : Labels 2) (target' : Fin n)
    : SameKeys (table.projection labels source target)
        (table.projection labels' source target') := by
  apply sameKeys_declareAll
  rw [map_path_onto, map_path_onto]

/-- What has names in a projection was declared under its key. -/
theorem mem_rekeyed_of_names?_projection (path : Path) {names : Names 2 path.kind}
    (found : (table.projection labels source target).names? path = some names)
    : ∃ names', ⟨path, names'⟩ ∈ table.rekeyed source ∧ names = names'.onto source target := by
  rw [names?_projection, Option.map_eq_some_iff] at found
  obtain ⟨names', last, rfl⟩ := found
  exact ⟨names', mem_of_lastDeclared? last, rfl⟩

/-- What is declared are the names of an entry. -/
theorem mem_namesOf_of_mem_rekeyed {declared : Declaration n}
    (member : declared ∈ table.rekeyed source)
    : declared.names ∈ table.namesOf declared.path.kind := by
  obtain ⟨cls, listed, owner, owned, rfl | ⟨field, among, key, keyed, rfl⟩
    | ⟨method, among, key, keyed, rfl | ⟨parameter, inside, rfl⟩⟩⟩ := mem_rekeyed_iff.mp member
  · exact List.mem_map_of_mem listed
  · exact List.mem_map_of_mem (List.mem_flatMap.mpr ⟨cls, listed, among⟩)
  · exact List.mem_map_of_mem (List.mem_flatMap.mpr ⟨cls, listed, among⟩)
  · exact List.mem_map_of_mem (List.mem_flatMap.mpr
      ⟨method, List.mem_flatMap.mpr ⟨cls, listed, among⟩, inside⟩)

/-- What holds of all that is declared under new keys holds of all entries with a name there, if all
classes have one.
-/
theorem forall_called_of_rekeyed {P : {kind : Kind} → Names n kind → Prop}
    (each
      : ∀ declared ∈ table.rekeyed source, declared.path.kind ≠ .parameter → P declared.names)
    (named : ∀ cls ∈ table.classes.values, (cls.names.get source).isSome = true) {kind : Kind}
    (no_parameter : kind ≠ .parameter) {names : Names n kind} (listed : names ∈ table.namesOf kind)
    {name : Name kind} (called : names.get source = some name)
    : P names := by
  cases kind with
  | cls =>
      obtain ⟨cls, among, rfl⟩ := List.mem_map.mp listed
      exact each ⟨.cls name, cls.names⟩ (mem_rekeyed_iff.mpr ⟨cls, among, name, called, Or.inl rfl⟩)
        no_parameter
  | field =>
      obtain ⟨field, member, rfl⟩ := List.mem_map.mp listed
      obtain ⟨cls, among, inside⟩ := List.mem_flatMap.mp member
      obtain ⟨owner, owned⟩ := Option.isSome_iff_exists.mp (named cls among)
      have keyed : (Rekey.ofTable table source).fieldKey? field = some _ :=
        Option.map_eq_some_iff.mpr ⟨name, called, rfl⟩
      exact each ⟨.field owner _, field.names⟩ (mem_rekeyed_iff.mpr
        ⟨cls, among, owner, owned, Or.inr (Or.inl ⟨field, inside, _, keyed, rfl⟩)⟩)
        no_parameter
  | method =>
      obtain ⟨method, member, rfl⟩ := List.mem_map.mp listed
      obtain ⟨cls, among, inside⟩ := List.mem_flatMap.mp member
      obtain ⟨owner, owned⟩ := Option.isSome_iff_exists.mp (named cls among)
      have keyed : (Rekey.ofTable table source).methodKey? method = some _ :=
        Option.map_eq_some_iff.mpr ⟨name, called, rfl⟩
      exact each ⟨.method owner _, method.names⟩ (mem_rekeyed_iff.mpr
        ⟨cls, among, owner, owned, Or.inr (Or.inr ⟨method, inside, _, keyed, Or.inl rfl⟩)⟩)
        no_parameter
  | parameter => exact absurd rfl no_parameter

/-- A projection keeps two of the names of an entry. -/
theorem exists_mem_namesOf_of_projection {kind : Kind} {names : Names 2 kind}
    (member : names ∈ (table.projection labels source target).namesOf kind)
    : ∃ before ∈ table.namesOf kind, names = before.onto source target := by
  refine forall_mem_namesOf (P := fun {kind} names =>
    ∃ before ∈ table.namesOf kind, names = before.onto source target) ?_ member
  intro path names found
  obtain ⟨before, declared, rfl⟩ := mem_rekeyed_of_names?_projection path found
  exact ⟨before, mem_namesOf_of_mem_rekeyed declared, rfl⟩

/-- A field of a projection was made from a field by renaming the classes in its descriptor. -/
theorem exists_field_of_projection {owner : ClassName} {key : FieldKey} {field : Field 2}
    (stored : (table.projection labels source target).field? owner key = some field)
    : ∃ cls ∈ table.classes.values, cls.names.get source = some owner
        ∧ ∃ before ∈ cls.fields.values, before.names.get source = some key.name
            ∧ field.descriptor = before.descriptor.map
                (Descriptor.renamed (Rekey.ofTable table source).newName) := by
  have found := congrArg (Option.map Field.names) stored
  obtain ⟨_, declared, _⟩ := mem_rekeyed_of_names?_projection (.field owner key) found
  obtain ⟨cls, listed, _, owned, same | ⟨before, among, _, keyed, same⟩
    | ⟨_, _, _, _, same | ⟨_, _, same⟩⟩⟩ := mem_rekeyed_iff.mp declared
  all_goals cases same
  obtain ⟨name, named, rfl⟩ := Option.map_eq_some_iff.mp keyed
  exact ⟨cls, listed, owned, before, among, named, (projection_coherent.field stored).2⟩

theorem exists_method_of_projection {owner : ClassName} {key : MethodKey} {method : Method 2}
    (stored : (table.projection labels source target).method? owner key = some method)
    : ∃ cls ∈ table.classes.values, cls.names.get source = some owner
        ∧ ∃ before ∈ cls.methods.values, before.names.get source = some key.name
            ∧ method.descriptor
              = before.descriptor.renamed (Rekey.ofTable table source).newName := by
  have found := congrArg (Option.map Method.names) stored
  obtain ⟨_, declared, _⟩ := mem_rekeyed_of_names?_projection (.method owner key) found
  obtain ⟨cls, listed, _, owned, same | ⟨_, _, _, _, same⟩
    | ⟨before, among, _, keyed, same | ⟨_, _, same⟩⟩⟩ := mem_rekeyed_iff.mp declared
  all_goals cases same
  obtain ⟨name, named, rfl⟩ := Option.map_eq_some_iff.mp keyed
  exact ⟨cls, listed, owned, before, among, named, (projection_coherent.method stored).2⟩

-----------------------------------------------------------------------------------------
-- Closed descriptors
-----------------------------------------------------------------------------------------

theorem mem_entries_field_iff {table : Table n} {cls : Class n} {field : Field n}
    : Entry.field cls field ∈ table.entries
      ↔ cls ∈ table.classes.values ∧ field ∈ cls.fields.values := by
  simp [entries, Class.entries, Method.entries]

theorem mem_entries_method_iff {table : Table n} {cls : Class n} {method : Method n}
    : Entry.method cls method ∈ table.entries
      ↔ cls ∈ table.classes.values ∧ method ∈ cls.methods.values := by
  simp [entries, Class.entries, Method.entries]

theorem mem_entries_parameter_iff {table : Table n} {cls : Class n} {method : Method n}
    {parameter : Parameter n}
    : Entry.parameter cls method parameter ∈ table.entries
      ↔ cls ∈ table.classes.values ∧ method ∈ cls.methods.values
        ∧ parameter ∈ method.parameters.values := by
  simp [entries, Class.entries, Method.entries]

/-- No descriptor has an open reference. -/
structure DescriptorsClosed (table : Table n) : Prop where
  field : ∀ field ∈ table.fields, ∀ descriptor ∈ field.descriptor, descriptor.Closed
  method : ∀ method ∈ table.methods, method.descriptor.Closed

/-- What a projection renames is closed, and stays so. -/
theorem project_descriptorsClosed {source target : String} {result : Table 2}
    (succeeds : table.project source target = .ok result)
    : result.DescriptorsClosed := by
  obtain ⟨column, targetColumn, _, _, _, projected, rfl⟩ := project_eq_ok succeeds
  constructor
  · intro field member
    obtain ⟨owner, key, stored⟩ := mem_fields_iff.mp member
    obtain ⟨cls, listed, owned, before, among, named, descriptor_eq⟩ :=
      exists_field_of_projection stored
    obtain ⟨declared?, succeeds⟩ :=
      projected (.field cls before) (mem_entries_field_iff.mpr ⟨listed, among⟩)
    obtain ⟨_, found, _⟩ := Outcome.bind_eq_ok_iff.mp succeeds
    have closed := ((Rekey.fieldKey_eq_ok_iff _).mp found).1 (Option.isSome_of_eq_some owned)
      (Option.isSome_of_eq_some named)
    rw [descriptor_eq]
    intro descriptor renamed
    obtain ⟨had, has, rfl⟩ := Option.map_eq_some_iff.mp renamed
    exact (closed had has).renamed _
  · intro method member
    obtain ⟨owner, key, stored⟩ := mem_methods_iff.mp member
    obtain ⟨cls, listed, owned, before, among, named, descriptor_eq⟩ :=
      exists_method_of_projection stored
    obtain ⟨declared?, succeeds⟩ :=
      projected (.method cls before) (mem_entries_method_iff.mpr ⟨listed, among⟩)
    obtain ⟨_, found, _⟩ := Outcome.bind_eq_ok_iff.mp succeeds
    have closed := ((Rekey.methodKey_eq_ok_iff _).mp found).1 (Option.isSome_of_eq_some owned)
      (Option.isSome_of_eq_some named)
    rw [descriptor_eq]
    exact closed.renamed _

/-- Where all but parameters have names, a projection that stops nowhere meets all descriptors and
the names of all parameters.
-/
theorem closed_of_projected
    (named
      : ∀ kind ≠ .parameter, ∀ names ∈ table.namesOf kind, (names.get source).isSome = true)
    (projected
      : ∀ entry ∈ table.entries, ∃ declared?,
          entry.projected (.ofTable table source) target = .ok declared?)
    : table.DescriptorsClosed
      ∧ ∀ names ∈ table.namesOf .parameter,
          names.get source ≠ some ⟨""⟩ ∧ names.get target ≠ some ⟨""⟩ := by
  have class_named {cls : Class n} (inside : cls ∈ table.classes.values)
      : (cls.names.get source).isSome = true :=
    named .cls (by decide) cls.names (List.mem_map_of_mem inside)
  have method_named {method : Method n} (member : method ∈ table.methods)
      : (method.names.get source).isSome = true :=
    named .method (by decide) method.names (List.mem_map_of_mem member)
  refine ⟨⟨?_, ?_⟩, ?_⟩
  · intro field member
    obtain ⟨cls, inside, among⟩ := List.mem_flatMap.mp member
    obtain ⟨_, succeeds⟩ := projected (.field cls field) (mem_entries_field_iff.mpr ⟨inside, among⟩)
    obtain ⟨_, found, _⟩ := Outcome.bind_eq_ok_iff.mp succeeds
    exact ((Rekey.fieldKey_eq_ok_iff _).mp found).1 (class_named inside)
      (named .field (by decide) field.names (List.mem_map_of_mem member))
  · intro method member
    obtain ⟨cls, inside, among⟩ := List.mem_flatMap.mp member
    obtain ⟨_, succeeds⟩ :=
      projected (.method cls method) (mem_entries_method_iff.mpr ⟨inside, among⟩)
    obtain ⟨_, found, _⟩ := Outcome.bind_eq_ok_iff.mp succeeds
    exact ((Rekey.methodKey_eq_ok_iff _).mp found).1 (class_named inside) (method_named member)
  · intro names listed
    obtain ⟨parameter, member, rfl⟩ := List.mem_map.mp listed
    obtain ⟨method, member', below⟩ := List.mem_flatMap.mp member
    obtain ⟨cls, inside, among⟩ := List.mem_flatMap.mp member'
    obtain ⟨_, succeeds⟩ := projected (.parameter cls method parameter)
      (mem_entries_parameter_iff.mpr ⟨inside, among, below⟩)
    obtain ⟨_, found, succeeds⟩ := Outcome.bind_eq_ok_iff.mp succeeds
    obtain ⟨_, rfl⟩ := (Rekey.methodKey_eq_ok_iff _).mp found
    obtain ⟨owner, owned⟩ := Option.isSome_iff_exists.mp (class_named inside)
    obtain ⟨name, called⟩ := Option.isSome_iff_exists.mp (method_named member')
    have keyed : ∃ key, (Rekey.ofTable table source).methodKey? method = some key :=
      ⟨_, Option.map_eq_some_iff.mpr ⟨name, called, rfl⟩⟩
    obtain ⟨key, keyed⟩ := keyed
    rw [show (Rekey.ofTable table source).column = source from rfl, owned, keyed] at succeeds
    obtain ⟨_, made, _⟩ := Outcome.bind_eq_ok_iff.mp succeeds
    exact (Names.ofPair_eq_ok_iff.mp made).1

section Closed

variable (closed : table.DescriptorsClosed)

include closed

/-- Nothing stops the key of a field. -/
theorem DescriptorsClosed.exists_fieldKey (rekey : Rekey n) {cls : Class n} {field : Field n}
    (listed : .field cls field ∈ table.entries)
    : ∃ key?, rekey.fieldKey cls field = .ok key? := by
  obtain ⟨inside, among⟩ := mem_entries_field_iff.mp listed
  have member : field ∈ table.fields := List.mem_flatMap.mpr ⟨cls, inside, among⟩
  exact ⟨_, (Rekey.fieldKey_eq_ok_iff _).mpr ⟨fun _ _ => closed.field field member, rfl⟩⟩

theorem DescriptorsClosed.exists_methodKey (rekey : Rekey n) {cls : Class n} {method : Method n}
    (listed : .method cls method ∈ table.entries)
    : ∃ key?, rekey.methodKey cls method = .ok key? := by
  obtain ⟨inside, among⟩ := mem_entries_method_iff.mp listed
  have member : method ∈ table.methods := List.mem_flatMap.mpr ⟨cls, inside, among⟩
  exact ⟨_, (Rekey.methodKey_eq_ok_iff _).mpr ⟨fun _ _ => closed.method method member, rfl⟩⟩

/-- Besides a descriptor, only an empty name of a parameter can stop an entry. -/
theorem DescriptorsClosed.exists_projected (rekey : Rekey n)
    (filled
      : ∀ names ∈ table.namesOf .parameter,
          names.get rekey.column ≠ some ⟨""⟩ ∧ names.get target ≠ some ⟨""⟩)
    {entry : Entry n} (listed : entry ∈ table.entries)
    : ∃ declared?, entry.projected rekey target = .ok declared? := by
  cases entry with
  | cls cls => exact ⟨_, rfl⟩
  | field cls field =>
      obtain ⟨key?, found⟩ := closed.exists_fieldKey rekey listed
      exact ⟨_, Outcome.bind_eq_ok_iff.mpr ⟨key?, found, rfl⟩⟩
  | method cls method =>
      obtain ⟨key?, found⟩ := closed.exists_methodKey rekey listed
      exact ⟨_, Outcome.bind_eq_ok_iff.mpr ⟨key?, found, rfl⟩⟩
  | parameter cls method parameter =>
      obtain ⟨inside, among, below⟩ := mem_entries_parameter_iff.mp listed
      obtain ⟨key?, found⟩ :=
        closed.exists_methodKey rekey (mem_entries_method_iff.mpr ⟨inside, among⟩)
      have member : parameter ∈ table.parameters := List.mem_flatMap.mpr
        ⟨method, List.mem_flatMap.mpr ⟨cls, inside, among⟩, below⟩
      have made := Names.ofPair_eq_ok_iff.mpr
        ⟨filled parameter.names (List.mem_map_of_mem member), rfl⟩
      cases key? with
      | none => exact ⟨_, Outcome.bind_eq_ok_iff.mpr ⟨_, found, rfl⟩⟩
      | some key => exact ⟨_, Outcome.bind_eq_ok_iff.mpr ⟨_, found,
          Outcome.bind_eq_ok_iff.mpr ⟨_, made, rfl⟩⟩⟩

/-- With its namespaces there, a projection succeeds if every entry does. -/
theorem DescriptorsClosed.project_eq_projection {source target : String}
    {sourceColumn targetColumn : Fin n}
    (found_source : table.labels.find? source = some sourceColumn)
    (found_target : table.labels.find? target = some targetColumn)
    (nonempty : source ≠ "" ∧ target ≠ "")
    (filled
      : ∀ names ∈ table.namesOf .parameter,
          names.get sourceColumn ≠ some ⟨""⟩ ∧ names.get targetColumn ≠ some ⟨""⟩)
    : table.project source target
      = .ok (table.projection ⟨#v[source, target]⟩ sourceColumn targetColumn) := by
  obtain ⟨declarations, projected⟩ := Outcome.exists_mapM_eq_ok_iff.mpr fun _ listed =>
    closed.exists_projected (.ofTable table sourceColumn) filled listed
  have succeeds : ∃ result, table.project source target = .ok result := by
    simp only [project, Outcome.bind_eq_ok_iff]
    exact ⟨_, sourceColumn, Labels.resolve_eq_ok_iff.mpr found_source,
      targetColumn, Labels.resolve_eq_ok_iff.mpr found_target,
      _, Labels.pair_eq_ok_iff.mpr ⟨nonempty, rfl⟩, declarations, projected, rfl⟩
  obtain ⟨result, succeeds⟩ := succeeds
  obtain ⟨column, column', found, found', _, _, rfl⟩ := project_eq_ok succeeds
  obtain rfl := Option.some.inj (found_source.symm.trans found)
  obtain rfl := Option.some.inj (found_target.symm.trans found')
  exact succeeds

end Closed

end Table

end NameTables
