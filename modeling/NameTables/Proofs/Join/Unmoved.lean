import NameTables.Proofs.Join.Meaning
import NameTables.Proofs.Table.Content

/-! Joins from the first namespace.
The keys of a coherent table are made of the names in its first namespace, so a join from there
moves no entry: the result has the keys of the left table, in their order, and only the parameters
are gone. No two entries fall on one key, and each one has the target name of its own match.
-/

namespace NameTables

variable {m n : Nat}

-----------------------------------------------------------------------------------------
-- Tables without their parameters
-----------------------------------------------------------------------------------------

def Method.withoutParameters (method : Method n) : Method n :=
  { method with parameters := .empty }

def Class.withoutParameters (cls : Class n) : Class n :=
  { cls with methods := cls.methods.map Method.withoutParameters }

def Table.withoutParameters (table : Table n) : Table n :=
  { table with classes := table.classes.map Class.withoutParameters }

namespace Table

variable (table : Table n) (owner : ClassName)

theorem class?_withoutParameters
    : table.withoutParameters.class? owner = (table.class? owner).map Class.withoutParameters :=
  OrderedMap.get?_map ..

theorem fieldsOf_withoutParameters
    : table.withoutParameters.fieldsOf owner = table.fieldsOf owner := by
  rw [fieldsOf, fieldsOf, class?_withoutParameters]
  cases table.class? owner <;> rfl

theorem methodsOf_withoutParameters
    : table.withoutParameters.methodsOf owner
      = (table.methodsOf owner).map Method.withoutParameters := by
  rw [methodsOf, methodsOf, class?_withoutParameters]
  cases table.class? owner <;> rfl

theorem field?_withoutParameters (key : FieldKey)
    : table.withoutParameters.field? owner key = table.field? owner key := by
  rw [field?_eq, field?_eq, fieldsOf_withoutParameters]

theorem method?_withoutParameters (key : MethodKey)
    : table.withoutParameters.method? owner key
      = (table.method? owner key).map Method.withoutParameters := by
  rw [method?_eq, method?_eq, methodsOf_withoutParameters, OrderedMap.get?_map]

theorem parametersOf_withoutParameters (key : MethodKey)
    : table.withoutParameters.parametersOf owner key = .empty := by
  rw [parametersOf, method?_withoutParameters]
  cases table.method? owner key <;> rfl

theorem names?_withoutParameters (path : Path)
    : table.withoutParameters.names? path
      = if path.kind = .parameter then none else table.names? path := by
  cases path with
  | cls owner =>
      rw [names?_cls, class?_withoutParameters, Option.map_map]
      rfl
  | field owner key =>
      rw [names?_field, field?_withoutParameters]
      rfl
  | method owner key =>
      rw [names?_method, method?_withoutParameters, Option.map_map]
      rfl
  | parameter owner key index =>
      rw [names?_parameter, parameter?_eq, parametersOf_withoutParameters]
      rfl

theorem SameKeys.withoutParameters {table : Table m} {table' : Table n}
    (same : SameKeys table table')
    : SameKeys table.withoutParameters table'.withoutParameters where
  classes := by simpa [Table.withoutParameters] using same.classes
  fields owner := by simpa [fieldsOf_withoutParameters] using same.fields owner
  methods owner := by simpa [methodsOf_withoutParameters] using same.methods owner
  parameters owner key := by simp [parametersOf_withoutParameters]

variable {table}

theorem Coherent.withoutParameters (coherent : table.Coherent)
    : table.withoutParameters.Coherent := by
  have described : table.withoutParameters.Described := by
    constructor
    · intro owner key field found
      rw [field?_withoutParameters] at found
      exact (coherent.field found).2
    · intro owner key method found
      rw [method?_withoutParameters, Option.map_eq_some_iff] at found
      obtain ⟨method, stored, rfl⟩ := found
      exact (coherent.method stored).2
    · intro owner key index parameter found
      rw [parameter?_eq, parametersOf_withoutParameters] at found
      simp at found
  apply described.coherent
  intro path names found
  rw [names?_withoutParameters] at found
  split at found
  · simp at found
  · exact coherent.names_fit found

end Table

-----------------------------------------------------------------------------------------
-- Entries that stay under their keys
-----------------------------------------------------------------------------------------

namespace JoinColumns

variable {columns : JoinColumns m n} {left : Table m}

/-- An entry looks for its match by its names, and so does the match. -/
theorem matchTarget?_map {kind : Kind} {α : Type} (namesOf : α → Names n kind) (others : List α)
    (names : Names m kind)
    : columns.matchTarget? id (others.map namesOf) names
      = columns.matchTarget? namesOf others names := by
  rw [matchTarget?, matchTarget?]
  simp only [List.filter_map, List.getLast?_map, Option.bind_eq_bind, Option.bind_map]
  rfl

variable (coherent : left.Coherent) (unmoved : columns.source.val = 0)

include unmoved

theorem get_source_of_unmoved {kind : Kind} (names : Names m kind)
    : names.get columns.source = names.first? := by
  rw [names.first?_eq_get (Nat.zero_lt_of_lt columns.source.isLt)]
  exact congrArg names.get (Fin.ext unmoved)

include coherent

theorem class_keyed_of_unmoved (owner : ClassName) (cls : Class m)
    (stored : left.classes.get? owner = some cls)
    : cls.names.get columns.source = some owner :=
  (get_source_of_unmoved unmoved _).trans (coherent.cls stored)

/-- Descriptors stay as they are. -/
theorem sourceName_of_unmoved (name : ClassName) : columns.sourceName left name = name := by
  rw [sourceName]
  cases stored : left.class? name with
  | none => rfl
  | some cls => rw [Option.bind_some, class_keyed_of_unmoved coherent unmoved name cls stored,
      Option.getD_some]

theorem field_keyed_of_unmoved (owner : ClassName) (key : FieldKey) (field : Field m)
    (stored : (left.fieldsOf owner).get? key = some field)
    : columns.fieldKey? left field = some key := by
  obtain ⟨first, descriptor_eq⟩ := coherent.field (Table.get?_fieldsOf.symm.trans stored)
  have kept := Descriptor.renamed_of_forall_eq (sourceName_of_unmoved coherent unmoved)
  rw [fieldKey?, get_source_of_unmoved unmoved, first, descriptor_eq, funext kept]
  simp

theorem method_keyed_of_unmoved (owner : ClassName) (key : MethodKey) (method : Method m)
    (stored : (left.methodsOf owner).get? key = some method)
    : columns.methodKey? left method = some key := by
  obtain ⟨first, descriptor_eq⟩ := coherent.method (Table.get?_methodsOf.symm.trans stored)
  have kept := Descriptor.renamed_of_forall_eq (sourceName_of_unmoved coherent unmoved)
  rw [methodKey?, get_source_of_unmoved unmoved, first, descriptor_eq, kept]
  rfl

theorem classesCalled_of_unmoved (owner : ClassName)
    : columns.classesCalled left owner = (left.class? owner).toList :=
  OrderedMap.filter_values (class_keyed_of_unmoved coherent unmoved) owner

theorem fieldsCalled_of_unmoved (owner : ClassName)
    : columns.fieldsCalled left owner = (left.fieldsOf owner).values := by
  rw [fieldsCalled, classesCalled_of_unmoved coherent unmoved, Table.fieldsOf]
  cases left.class? owner with
  | none => rfl
  | some cls => simp

theorem methodsCalled_of_unmoved (owner : ClassName)
    : columns.methodsCalled left owner = (left.methodsOf owner).values := by
  rw [methodsCalled, classesCalled_of_unmoved coherent unmoved, Table.methodsOf]
  cases left.class? owner with
  | none => rfl
  | some cls => simp

variable (right : Table n)

/-- The result has the keys of the left table, but no parameters. -/
theorem sameKeys_of_unmoved (labels : Labels 2)
    : Table.SameKeys (Table.retargeted labels (columns.retargets left right))
        left.withoutParameters where
  classes := by
    rw [Table.retargeted, Table.classKeys_applyAll, List.map_map]
    change ((columns.retargets left right).map fun retarget => retarget.path.owner).eraseDups = _
    rw [columns.owners_retargets, Table.withoutParameters, OrderedMap.keys_map,
      OrderedMap.filterMap_values (class_keyed_of_unmoved coherent unmoved),
      OrderedMap.eraseDups_of_nodup left.classes.keys_nodup]
  fields owner := by
    rw [Table.retargeted, Table.fieldKeys_applyAll, List.filterMap_map]
    change ((columns.retargets left right).filterMap fun retarget =>
      retarget.path.fieldKey? owner).eraseDups = _
    rw [columns.fieldKeys_retargets, fieldsCalled_of_unmoved coherent unmoved,
      OrderedMap.filterMap_values (field_keyed_of_unmoved coherent unmoved owner),
      OrderedMap.eraseDups_of_nodup (left.fieldsOf owner).keys_nodup,
      Table.fieldsOf_withoutParameters]
  methods owner := by
    rw [Table.retargeted, Table.methodKeys_applyAll, List.filterMap_map]
    change ((columns.retargets left right).filterMap fun retarget =>
      retarget.path.methodKey? owner).eraseDups = _
    rw [columns.methodKeys_retargets, methodsCalled_of_unmoved coherent unmoved,
      OrderedMap.filterMap_values (method_keyed_of_unmoved coherent unmoved owner),
      OrderedMap.eraseDups_of_nodup (left.methodsOf owner).keys_nodup,
      Table.methodsOf_withoutParameters, OrderedMap.keys_map]
  parameters owner key := by
    rw [Table.parameters_retargeted _ _
      (fun _ => columns.kind_ne_parameter_of_mem_retargets left right),
      Table.parametersOf_withoutParameters]
    rfl

/-- The target name at a path is that of the match of the one entry there. -/
theorem lastTarget?_of_unmoved {path : Path} (no_parameter : path.kind ≠ .parameter)
    : lastTarget? (columns.retargets left right) path
      = (left.names? path).bind (columns.matchTarget? id (right.namesOf path.kind)) := by
  cases path with
  | cls owner =>
      rw [columns.lastTarget?_cls, classesCalled_of_unmoved coherent unmoved, Table.names?_cls]
      cases left.class? owner with
      | none => rfl
      | some cls => simp [Table.namesOf, matchTarget?_map]
  | field owner key =>
      rw [columns.lastTarget?_field, fieldsCalled_of_unmoved coherent unmoved,
        OrderedMap.filter_values (field_keyed_of_unmoved coherent unmoved owner),
        Table.get?_fieldsOf, Table.names?_field]
      cases left.field? owner key with
      | none => rfl
      | some field => simp [Table.namesOf, matchTarget?_map]
  | method owner key =>
      rw [columns.lastTarget?_method, methodsCalled_of_unmoved coherent unmoved,
        OrderedMap.filter_values (method_keyed_of_unmoved coherent unmoved owner),
        Table.get?_methodsOf, Table.names?_method]
      cases left.method? owner key with
      | none => rfl
      | some method => simp [Table.namesOf, matchTarget?_map]
  | parameter => exact absurd rfl no_parameter

end JoinColumns

end NameTables
