import NameTables.Proofs.OrderedMap
import NameTables.Proofs.Table.Declarations

/-! What a table is told by.
A described table is the one table with its labels, its keys in their order, and its names. A run of
changes takes the keys from the paths and the names from the changes, so runs are compared by these.
-/

namespace NameTables

variable {n : Nat}

/-- The key that a field repeats, if it has a name. -/
def Field.key? (field : Field 2) : Option FieldKey :=
  field.names.source.map fun name => ⟨name, field.descriptor⟩

/-- The key that a method repeats, if it has a name. -/
def Method.key? (method : Method 2) : Option MethodKey :=
  method.names.source.map fun name => ⟨name, method.descriptor⟩

namespace Table

-----------------------------------------------------------------------------------------
-- Entries of the whole table
-----------------------------------------------------------------------------------------

section Entries

variable {table : Table n}

theorem mem_fields_iff {field : Field n}
    : field ∈ table.fields ↔ ∃ owner key, table.field? owner key = some field := by
  simp only [fields, List.mem_flatMap, OrderedMap.mem_values_iff, field?, class?,
    Option.bind_eq_bind, Option.bind_eq_some_iff]
  constructor
  · intro given
    rcases given with ⟨cls, ⟨owner, stored⟩, key, found⟩
    exact ⟨owner, key, cls, stored, found⟩
  · intro given
    rcases given with ⟨owner, key, cls, stored, found⟩
    exact ⟨cls, ⟨owner, stored⟩, key, found⟩

theorem mem_methods_iff {method : Method n}
    : method ∈ table.methods ↔ ∃ owner key, table.method? owner key = some method := by
  simp only [methods, List.mem_flatMap, OrderedMap.mem_values_iff, method?, class?,
    Option.bind_eq_bind, Option.bind_eq_some_iff]
  constructor
  · intro given
    rcases given with ⟨cls, ⟨owner, stored⟩, key, found⟩
    exact ⟨owner, key, cls, stored, found⟩
  · intro given
    rcases given with ⟨owner, key, cls, stored, found⟩
    exact ⟨cls, ⟨owner, stored⟩, key, found⟩

theorem mem_parameters_iff {parameter : Parameter n}
    : parameter ∈ table.parameters
      ↔ ∃ owner key index, table.parameter? owner key index = some parameter := by
  simp only [parameters, List.mem_flatMap, OrderedMap.mem_values_iff, mem_methods_iff, parameter?,
    Option.bind_eq_bind, Option.bind_eq_some_iff]
  constructor
  · intro given
    rcases given with ⟨method, ⟨owner, key, stored⟩, index, found⟩
    exact ⟨owner, key, index, method, stored, found⟩
  · intro given
    rcases given with ⟨owner, key, index, method, stored, found⟩
    exact ⟨method, ⟨owner, key, stored⟩, index, found⟩

/-- The names of all entries of a kind, wherever they are. -/
def namesOf (table : Table n) : (kind : Kind) → List (Names n kind)
  | .cls => table.classes.values.map Class.names
  | .field => table.fields.map Field.names
  | .method => table.methods.map Method.names
  | .parameter => table.parameters.map Parameter.names

theorem mem_namesOf {path : Path} {names : Names n path.kind}
    (found : table.names? path = some names)
    : names ∈ table.namesOf path.kind := by
  cases path with
  | cls owner =>
      obtain ⟨cls, stored, rfl⟩ := Option.map_eq_some_iff.mp found
      exact List.mem_map_of_mem (OrderedMap.mem_values_iff.mpr ⟨owner, stored⟩)
  | field owner key =>
      obtain ⟨field, stored, rfl⟩ := Option.map_eq_some_iff.mp found
      exact List.mem_map_of_mem (mem_fields_iff.mpr ⟨owner, key, stored⟩)
  | method owner key =>
      obtain ⟨method, stored, rfl⟩ := Option.map_eq_some_iff.mp found
      exact List.mem_map_of_mem (mem_methods_iff.mpr ⟨owner, key, stored⟩)
  | parameter owner key index =>
      obtain ⟨parameter, stored, rfl⟩ := Option.map_eq_some_iff.mp found
      exact List.mem_map_of_mem (mem_parameters_iff.mpr ⟨owner, key, index, stored⟩)

/-- What holds of the names at every path holds of all names. -/
theorem forall_mem_namesOf {P : {kind : Kind} → Names n kind → Prop}
    (each : ∀ path names, table.names? path = some names → P names) {kind : Kind}
    {names : Names n kind} (member : names ∈ table.namesOf kind)
    : P names := by
  cases kind with
  | cls =>
      obtain ⟨cls, listed, rfl⟩ := List.mem_map.mp member
      obtain ⟨owner, stored⟩ := OrderedMap.mem_values_iff.mp listed
      exact each (.cls owner) cls.names (Option.map_eq_some_iff.mpr ⟨cls, stored, rfl⟩)
  | field =>
      obtain ⟨field, listed, rfl⟩ := List.mem_map.mp member
      obtain ⟨owner, key, stored⟩ := mem_fields_iff.mp listed
      exact each (.field owner key) field.names (Option.map_eq_some_iff.mpr ⟨field, stored, rfl⟩)
  | method =>
      obtain ⟨method, listed, rfl⟩ := List.mem_map.mp member
      obtain ⟨owner, key, stored⟩ := mem_methods_iff.mp listed
      exact each (.method owner key) method.names
        (Option.map_eq_some_iff.mpr ⟨method, stored, rfl⟩)
  | parameter =>
      obtain ⟨parameter, listed, rfl⟩ := List.mem_map.mp member
      obtain ⟨owner, key, index, stored⟩ := mem_parameters_iff.mp listed
      exact each (.parameter owner key index) parameter.names
        (Option.map_eq_some_iff.mpr ⟨parameter, stored, rfl⟩)

/-- An entry is in a class. -/
theorem exists_class?_of_names? {path : Path} {names : Names n path.kind}
    (found : table.names? path = some names)
    : ∃ cls, table.class? path.owner = some cls := by
  cases path with
  | cls owner =>
      obtain ⟨cls, stored, _⟩ := Option.map_eq_some_iff.mp found
      exact ⟨cls, stored⟩
  | field owner key =>
      obtain ⟨field, stored, _⟩ := Option.map_eq_some_iff.mp found
      obtain ⟨cls, stored, _⟩ := Option.bind_eq_some_iff.mp stored
      exact ⟨cls, stored⟩
  | method owner key =>
      obtain ⟨method, stored, _⟩ := Option.map_eq_some_iff.mp found
      obtain ⟨cls, stored, _⟩ := Option.bind_eq_some_iff.mp stored
      exact ⟨cls, stored⟩
  | parameter owner key index =>
      obtain ⟨parameter, stored, _⟩ := Option.map_eq_some_iff.mp found
      obtain ⟨method, stored, _⟩ := Option.bind_eq_some_iff.mp stored
      obtain ⟨cls, stored, _⟩ := Option.bind_eq_some_iff.mp stored
      exact ⟨cls, stored⟩

theorem Coherent.field_key? {table : Table 2} (coherent : table.Coherent) {owner : ClassName}
    {key : FieldKey} {field : Field 2} (stored : table.field? owner key = some field)
    : field.key? = some key := by
  obtain ⟨first, descriptor⟩ := coherent.field stored
  rw [Field.key?, Names.source_eq_first?, first, descriptor]
  rfl

theorem Coherent.method_key? {table : Table 2} (coherent : table.Coherent) {owner : ClassName}
    {key : MethodKey} {method : Method 2} (stored : table.method? owner key = some method)
    : method.key? = some key := by
  obtain ⟨first, descriptor⟩ := coherent.method stored
  rw [Method.key?, Names.source_eq_first?, first, descriptor]
  rfl

end Entries

-----------------------------------------------------------------------------------------
-- Tables with the same keys
-----------------------------------------------------------------------------------------

/-- All owners have the same keys, in the same order. -/
structure SameKeys {m n : Nat} (table : Table m) (table' : Table n) : Prop where
  classes : table.classes.keys = table'.classes.keys
  fields : ∀ owner, (table.fieldsOf owner).keys = (table'.fieldsOf owner).keys
  methods : ∀ owner, (table.methodsOf owner).keys = (table'.methodsOf owner).keys
  parameters
    : ∀ owner key, (table.parametersOf owner key).keys = (table'.parametersOf owner key).keys

namespace SameKeys

variable {l m : Nat}

theorem symm {table : Table m} {table' : Table n} (same : SameKeys table table')
    : SameKeys table' table where
  classes := same.classes.symm
  fields owner := (same.fields owner).symm
  methods owner := (same.methods owner).symm
  parameters owner key := (same.parameters owner key).symm

theorem trans {first : Table l} {second : Table m} {third : Table n}
    (same : SameKeys first second) (same' : SameKeys second third)
    : SameKeys first third where
  classes := same.classes.trans same'.classes
  fields owner := (same.fields owner).trans (same'.fields owner)
  methods owner := (same.methods owner).trans (same'.methods owner)
  parameters owner key := (same.parameters owner key).trans (same'.parameters owner key)

/-- Tables with the same keys have entries at the same paths. -/
theorem names?_isSome {table : Table m} {table' : Table n} (same : SameKeys table table')
    (path : Path)
    : (table.names? path).isSome = (table'.names? path).isSome := by
  have of_keys {κ α β : Type} [DecidableEq κ] {entries : OrderedMap κ α} {entries' : OrderedMap κ β}
      (keys_eq : entries.keys = entries'.keys) (key : κ)
      : (entries.get? key).isSome = (entries'.get? key).isSome := by
    rw [Bool.eq_iff_iff, entries.get?_isSome_iff, entries'.get?_isSome_iff, keys_eq]
  cases path with
  | cls owner =>
      rw [names?_cls, names?_cls, Option.isSome_map, Option.isSome_map]
      exact of_keys same.classes owner
  | field owner key =>
      rw [names?_field, names?_field, Option.isSome_map, Option.isSome_map, field?_eq, field?_eq]
      exact of_keys (same.fields owner) key
  | method owner key =>
      rw [names?_method, names?_method, Option.isSome_map, Option.isSome_map, method?_eq,
        method?_eq]
      exact of_keys (same.methods owner) key
  | parameter owner key index =>
      rw [names?_parameter, names?_parameter, Option.isSome_map, Option.isSome_map, parameter?_eq,
        parameter?_eq]
      exact of_keys (same.parameters owner key) index

end SameKeys

/-- Described tables with the same keys and the same names are the same, level by level from the
parameters outwards.
-/
theorem Described.eq_of_sameKeys {table table' : Table n} (described : table.Described)
    (described' : table'.Described) (labels_eq : table.labels = table'.labels)
    (same : SameKeys table table')
    (agree
      : ∀ path names names', table.names? path = some names → table'.names? path = some names'
          → names = names')
    : table = table' := by
  have names_eq (path : Path) : table.names? path = table'.names? path := by
    have present := same.names?_isSome path
    cases found : table.names? path with
    | none =>
        rw [found, Option.isSome_none, eq_comm, Option.isSome_eq_false_iff,
          Option.isNone_iff_eq_none] at present
        rw [present]
    | some names =>
        rw [found, Option.isSome_some, eq_comm] at present
        obtain ⟨names', found'⟩ := Option.isSome_iff_exists.mp present
        rw [found', agree path names names' found found']
  have fields_eq (owner : ClassName) : table.fieldsOf owner = table'.fieldsOf owner := by
    apply OrderedMap.ext_get? (same.fields owner)
    intro key
    rw [← Table.field?_eq, ← Table.field?_eq]
    exact described.field?_eq described' (names_eq (.field owner key))
  have parameters_eq (owner : ClassName) (key : MethodKey)
      : table.parametersOf owner key = table'.parametersOf owner key := by
    apply OrderedMap.ext_get? (same.parameters owner key)
    intro index
    rw [← Table.parameter?_eq, ← Table.parameter?_eq]
    exact described.parameter?_eq described' (names_eq (.parameter owner key index))
  have methods_eq (owner : ClassName) : table.methodsOf owner = table'.methodsOf owner := by
    apply OrderedMap.ext_get? (same.methods owner)
    intro key
    rw [← method?_eq, ← method?_eq]
    apply eq_of_map_eq (names_eq (.method owner key))
    intro method method' found found' method_names_eq
    have descriptor_eq := (described.method found).trans (described'.method found').symm
    have inside := parameters_eq owner key
    rw [parametersOf_of_method? found, parametersOf_of_method? found'] at inside
    cases method
    cases method'
    simp_all
  have classes_eq : table.classes = table'.classes := by
    apply OrderedMap.ext_get? same.classes
    intro owner
    apply eq_of_map_eq (names_eq (.cls owner))
    intro cls cls' found found' class_names_eq
    have class_fields_eq := fields_eq owner
    rw [fieldsOf_of_class? found, fieldsOf_of_class? found'] at class_fields_eq
    have class_methods_eq := methods_eq owner
    rw [methodsOf_of_class? found, methodsOf_of_class? found'] at class_methods_eq
    cases cls
    cases cls'
    simp_all
  cases table
  cases table'
  simp_all

/-- Declarations of the same paths, in the same order, make the same keys. -/
theorem sameKeys_declareAll {m n : Nat} (labels : Labels m) (labels' : Labels n)
    {declarations : List (Declaration m)} {declarations' : List (Declaration n)}
    (paths_eq : declarations.map Declaration.path = declarations'.map Declaration.path)
    : SameKeys ((Table.empty labels).declareAll declarations)
        ((Table.empty labels').declareAll declarations') := by
  have used_eq {κ : Type} (used : Path → Option κ)
      : (declarations.map Declaration.edit).filterMap (fun edit => used edit.path)
        = (declarations'.map Declaration.edit).filterMap fun edit => used edit.path := by
    have same := congrArg (List.filterMap used) paths_eq
    rw [List.filterMap_map, List.filterMap_map] at same
    rw [List.filterMap_map, List.filterMap_map]
    exact same
  rw [declareAll_eq_applyAll, declareAll_eq_applyAll]
  constructor
  · have owners_eq := used_eq fun path => some path.owner
    rw [List.filterMap_eq_map', List.filterMap_eq_map'] at owners_eq
    rw [classKeys_applyAll, classKeys_applyAll, owners_eq]
    rfl
  · intro owner
    rw [fieldKeys_applyAll, fieldKeys_applyAll, used_eq]
    rfl
  · intro owner
    rw [methodKeys_applyAll, methodKeys_applyAll, used_eq]
    rfl
  · intro owner key
    rw [parameterIndices_applyAll, parameterIndices_applyAll, used_eq]
    rfl

end Table

end NameTables
