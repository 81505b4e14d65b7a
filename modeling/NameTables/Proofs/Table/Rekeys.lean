import NameTables.Proofs.Descriptor.Renamed
import NameTables.Proofs.Format.Records
import NameTables.Proofs.Labels
import NameTables.Proofs.OrderedMap
import NameTables.Proofs.Table.Coherence
import NameTables.Table.Rekey

/-! Keys under the names of another namespace.
A new class name is found when all pairs agree on it. An entry has a new key when it and its class
have names there, and finding the key fails only at a descriptor with a reference that is not
closed.
-/

namespace NameTables

variable {n : Nat}

/-- A new name is found when all pairs with the name have the same one. -/
theorem ClassMap.find?_eq_some_iff {classMap : ClassMap} {name name' : ClassName}
    (functional
      : ∀ new new', (name, new) ∈ classMap.pairs → (name, new') ∈ classMap.pairs → new = new')
    : classMap.find? name = some name' ↔ (name, name') ∈ classMap.pairs := by
  rw [find?, Option.map_eq_some_iff]
  constructor
  · intro given
    rcases given with ⟨pair, found, rfl⟩
    have named : pair.1 = name := by simpa using List.find?_some found
    have listed := List.mem_reverse.mp (List.mem_of_find?_eq_some found)
    rwa [← named]
  · intro listed
    have some_pair : (classMap.pairs.reverse.find? fun pair => pair.1 = name).isSome = true := by
      rw [List.find?_isSome]
      exact ⟨(name, name'), List.mem_reverse.mpr listed, by simp⟩
    obtain ⟨pair, found⟩ := Option.isSome_iff_exists.mp some_pair
    have named : pair.1 = name := by simpa using List.find?_some found
    have among := List.mem_reverse.mp (List.mem_of_find?_eq_some found)
    exact ⟨pair, found, functional pair.2 name' (by rwa [← named]) listed⟩

namespace Table

variable {table : Table n} {source target : Fin n}

theorem mem_classMap_iff {name name' : ClassName}
    : (name, name') ∈ (table.classMap source target).pairs
      ↔ ∃ cls ∈ table.classes.values,
          cls.names.get source = some name ∧ cls.names.get target = some name' := by
  simp only [classMap, List.mem_filterMap]
  constructor
  · intro given
    rcases given with ⟨cls, listed, paired⟩
    obtain ⟨x, called, paired⟩ := Option.bind_eq_some_iff.mp paired
    obtain ⟨y, renamed, same⟩ := Option.bind_eq_some_iff.mp paired
    obtain ⟨rfl, rfl⟩ := Prod.mk.inj (Option.some.inj same)
    exact ⟨cls, listed, called, renamed⟩
  · intro given
    rcases given with ⟨cls, listed, called, renamed⟩
    exact ⟨cls, listed, by rw [called, renamed]; rfl⟩

/-- Classes with pairwise different names in a namespace are renamed from there one by one. -/
theorem find?_classMap_eq_some_iff
    (distinct : (table.classes.values.map fun cls => cls.names.get source).Nodup)
    {name name' : ClassName}
    : (table.classMap source target).find? name = some name'
      ↔ ∃ cls ∈ table.classes.values,
          cls.names.get source = some name ∧ cls.names.get target = some name' := by
  rw [ClassMap.find?_eq_some_iff, mem_classMap_iff]
  intro new new' listed listed'
  obtain ⟨cls, among, called, renamed⟩ := mem_classMap_iff.mp listed
  obtain ⟨cls', among', called', renamed'⟩ := mem_classMap_iff.mp listed'
  obtain rfl := List.inj_on_of_nodup_map distinct among among' (called.trans called'.symm)
  exact Option.some.inj (renamed.symm.trans renamed')

/-- The class with a name is renamed to its other name. -/
theorem apply_classMap
    (distinct : (table.classes.values.map fun cls => cls.names.get source).Nodup) {cls : Class n}
    (listed : cls ∈ table.classes.values) {name name' : ClassName}
    (called : cls.names.get source = some name) (renamed : cls.names.get target = some name')
    : (table.classMap source target).apply name = name' := by
  rw [ClassMap.apply,
    (find?_classMap_eq_some_iff distinct).mpr ⟨cls, listed, called, renamed⟩, Option.getD_some]

/-- A name that no class has is kept. -/
theorem apply_classMap_of_forall_ne {name : ClassName}
    (uncalled : ∀ cls ∈ table.classes.values, cls.names.get source ≠ some name)
    : (table.classMap source target).apply name = name := by
  have absent : (table.classMap source target).find? name = none := by
    rw [ClassMap.find?, Option.map_eq_none_iff, List.find?_eq_none]
    intro pair listed
    obtain ⟨cls, among, called, _⟩ := mem_classMap_iff.mp (List.mem_reverse.mp listed)
    have different : pair.1 ≠ name := fun same => uncalled cls among (same ▸ called)
    simpa using different
  rw [ClassMap.apply, absent, Option.getD_none]

theorem Coherent.get_first (coherent : table.Coherent) (positive : 0 < n) {owner : ClassName}
    {cls : Class n} (stored : table.class? owner = some cls)
    : cls.names.get ⟨0, positive⟩ = some owner := by
  rw [← Names.first?_eq_get]
  exact coherent.cls stored

/-- Classes of a coherent table have pairwise different first names. -/
theorem Coherent.nodup_first (coherent : table.Coherent) (positive : 0 < n)
    : (table.classes.values.map fun cls => cls.names.get ⟨0, positive⟩).Nodup :=
  OrderedMap.nodup_map_values some (fun _ _ => Option.some.inj) fun _ _ stored =>
    coherent.get_first positive stored

end Table

namespace Rekey

/-- A class of a coherent table has its name in the new namespace, if there is one. -/
theorem newName_ofTable {table : Table n} (coherent : table.Coherent) (source : Fin n)
    (name : ClassName)
    : (ofTable table source).newName name
      = ((table.class? name).bind fun cls => cls.names.get source).getD name := by
  have positive : 0 < n := Nat.zero_lt_of_lt source.isLt
  have same : (table.classMap ⟨0, positive⟩ source).find? name
      = (table.class? name).bind fun cls => cls.names.get source := by
    apply Option.ext
    intro name'
    rw [Table.find?_classMap_eq_some_iff (coherent.nodup_first positive), Option.bind_eq_some_iff]
    constructor
    · intro given
      rcases given with ⟨cls, listed, called, renamed⟩
      obtain ⟨owner, stored⟩ := OrderedMap.mem_values_iff.mp listed
      obtain rfl := Option.some.inj ((coherent.get_first positive stored).symm.trans called)
      exact ⟨cls, stored, renamed⟩
    · intro given
      rcases given with ⟨cls, stored, renamed⟩
      exact ⟨cls, OrderedMap.mem_values_iff.mpr ⟨name, stored⟩,
        coherent.get_first positive stored, renamed⟩
  exact congrArg (Option.getD · name) same

variable (rekey : Rekey n)

/-- The key that a field moves to in its class. -/
def fieldKey? (field : Field n) : Option FieldKey :=
  (field.names.get rekey.column).map fun name =>
    ⟨name, field.descriptor.map (Descriptor.renamed rekey.newName)⟩

/-- The key that a method moves to in its class. -/
def methodKey? (method : Method n) : Option MethodKey :=
  (method.names.get rekey.column).map fun name =>
    ⟨name, method.descriptor.renamed rekey.newName⟩

theorem fieldKey_eq_ok_iff {owner : Class n} {field : Field n}
    {key? : Option (ClassName × FieldKey)}
    : rekey.fieldKey owner field = .ok key?
      ↔ ((owner.names.get rekey.column).isSome = true
          → (field.names.get rekey.column).isSome = true
          → ∀ descriptor ∈ field.descriptor, descriptor.Closed)
        ∧ key? = (owner.names.get rekey.column).bind fun ownerName =>
            (rekey.fieldKey? field).map (ownerName, ·) := by
  unfold fieldKey fieldKey?
  rw [eq_comm (a := key?)]
  cases owner.names.get rekey.column with
  | none => simp
  | some ownerName =>
      cases field.names.get rekey.column with
      | none => simp
      | some name =>
          cases field.descriptor with
          | none => simp
          | some descriptor =>
              simp only [Outcome.bind_eq_ok_iff, Outcome.within_eq_ok_iff,
                Descriptor.rename_eq_ok_iff]
              constructor
              · intro given
                rcases given with ⟨_, ⟨closed, rfl⟩, same⟩
                exact ⟨fun _ _ d found => Option.some.inj found ▸ closed,
                  Except.ok.inj same⟩
              · intro given
                rcases given with ⟨closed, rfl⟩
                exact ⟨_, ⟨closed rfl rfl descriptor rfl, rfl⟩, rfl⟩

theorem methodKey_eq_ok_iff {owner : Class n} {method : Method n}
    {key? : Option (ClassName × MethodKey)}
    : rekey.methodKey owner method = .ok key?
      ↔ ((owner.names.get rekey.column).isSome = true
          → (method.names.get rekey.column).isSome = true → method.descriptor.Closed)
        ∧ key? = (owner.names.get rekey.column).bind fun ownerName =>
            (rekey.methodKey? method).map (ownerName, ·) := by
  unfold methodKey methodKey?
  rw [eq_comm (a := key?)]
  cases owner.names.get rekey.column with
  | none => simp
  | some ownerName =>
      cases method.names.get rekey.column with
      | none => simp
      | some name =>
          simp only [Outcome.bind_eq_ok_iff, Outcome.within_eq_ok_iff,
            Descriptor.rename_eq_ok_iff]
          constructor
          · intro given
            rcases given with ⟨_, ⟨closed, rfl⟩, same⟩
            exact ⟨fun _ _ => closed, Except.ok.inj same⟩
          · intro given
            rcases given with ⟨closed, rfl⟩
            exact ⟨_, ⟨closed rfl rfl, rfl⟩, rfl⟩

-----------------------------------------------------------------------------------------
-- Keys under the first names
-----------------------------------------------------------------------------------------

section First

variable {table : Table n} (coherent : table.Coherent) (positive : 0 < n)

include coherent

/-- A class keeps its name in the first namespace. -/
theorem newName_first (name : ClassName)
    : (ofTable table ⟨0, positive⟩).newName name = name := by
  rw [newName_ofTable coherent]
  cases stored : table.class? name with
  | none => rfl
  | some cls => rw [Option.bind_some, coherent.get_first positive stored, Option.getD_some]

theorem renamed_first (descriptor : Descriptor)
    : descriptor.renamed (ofTable table ⟨0, positive⟩).newName = descriptor :=
  Descriptor.renamed_of_forall_eq (newName_first coherent positive) descriptor

/-- A field keeps its key in the first namespace. -/
theorem fieldKey?_first {owner : ClassName} {key : FieldKey} {field : Field n}
    (stored : table.field? owner key = some field)
    : (ofTable table ⟨0, positive⟩).fieldKey? field = some key := by
  obtain ⟨first, described⟩ := coherent.field stored
  have named : field.names.get ⟨0, positive⟩ = some key.name := by
    rw [← Names.first?_eq_get, first]
  have kept := funext (renamed_first coherent positive)
  rw [fieldKey?, show (ofTable table ⟨0, positive⟩).column = ⟨0, positive⟩ from rfl, named, kept,
    described]
  simp

/-- A method keeps its key in the first namespace. -/
theorem methodKey?_first {owner : ClassName} {key : MethodKey} {method : Method n}
    (stored : table.method? owner key = some method)
    : (ofTable table ⟨0, positive⟩).methodKey? method = some key := by
  obtain ⟨first, described⟩ := coherent.method stored
  have named : method.names.get ⟨0, positive⟩ = some key.name := by
    rw [← Names.first?_eq_get, first]
  rw [methodKey?, show (ofTable table ⟨0, positive⟩).column = ⟨0, positive⟩ from rfl, named,
    renamed_first coherent, described]
  rfl

end First

end Rekey

end NameTables
