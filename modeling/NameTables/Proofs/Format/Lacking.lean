import NameTables.Proofs.FirstFailure
import NameTables.Proofs.Format.Words

/-! Members without a descriptor.
A mapped member needs one to be written. The members are looked at class by class, the fields before
the methods, and the first one that lacks its descriptor is what a failure tells.
-/

namespace NameTables

/-- What values tell of their keys is told by the keys of the values that are kept. -/
theorem OrderedMap.map_filter_values {κ α β : Type} [DecidableEq κ] {m : OrderedMap κ α}
    {keep : α → Bool} {told : α → β} {toldOf : κ → β}
    (same : ∀ key a, m.get? key = some a → told a = toldOf key)
    : (m.values.filter keep).map told
      = (m.keys.filter fun key => (m.get? key).any keep).map toldOf := by
  rw [values, keys, List.filter_map, List.filter_map, List.map_map, List.map_map]
  have kept_eq : m.entries.filter (keep ∘ Prod.snd)
      = m.entries.filter ((fun key => (m.get? key).any keep) ∘ Prod.fst) := by
    apply List.filter_congr
    intro entry listed
    have stored := (m.get?_eq_some_iff entry.1 entry.2).mpr listed
    simp [stored]
  rw [← kept_eq]
  apply List.map_congr_left
  intro entry member
  have listed := (List.mem_filter.mp member).1
  exact same entry.1 entry.2 ((m.get?_eq_some_iff entry.1 entry.2).mpr listed)

/-- The first name of the entry at the end of a path. Parameters have none. -/
def Path.firstName : Path → String
  | .cls owner => owner.text
  | .field _ key => key.name.text
  | .method _ key => key.name.text
  | .parameter _ _ _ => ""

namespace Table

/-- The fields and methods, in the order in which they are looked at. -/
def memberPaths {n : Nat} (table : Table n) : List Path :=
  table.classes.entries.flatMap fun (owner, cls) =>
    cls.fields.keys.map (Path.field owner) ++ cls.methods.keys.map (Path.method owner)

/-- (table.Lacks path) says that there is a field with a target name at the end of the path, but
with no descriptor or an empty one, or a method with a target name for itself or a parameter, but
with an empty descriptor.
-/
def Lacks (table : Table 2) : Path → Prop
  | .field owner key =>
      ∃ field, table.field? owner key = some field ∧ field.names.target.isSome = true
        ∧ ∀ descriptor, field.descriptor = some descriptor → descriptor.text = ""
  | .method owner key =>
      ∃ method, table.method? owner key = some method
        ∧ (method.names.target.isSome = true
          ∨ ∃ index parameter, table.parameter? owner key index = some parameter
              ∧ parameter.names.target.isSome = true)
        ∧ method.descriptor.text = ""
  | .cls _ | .parameter _ _ _ => False

/-- The member lacks its descriptor, and none does that is looked at before it. -/
def FirstLacks (table : Table 2) (member : Path) : Prop :=
  ∃ before after, table.memberPaths = before ++ member :: after
    ∧ table.Lacks member ∧ ∀ path ∈ before, ¬ table.Lacks path

/-- The writers look whether a member lacks its descriptor. -/
def lacksAt (table : Table 2) : Path → Bool
  | .field owner key => (table.field? owner key).any Field.lacksDescriptor
  | .method owner key => (table.method? owner key).any Method.lacksDescriptor
  | .cls _ | .parameter _ _ _ => false

variable {table : Table 2}

theorem mem_memberPaths_field_iff {owner : ClassName} {key : FieldKey}
    : .field owner key ∈ table.memberPaths ↔ ∃ field, table.field? owner key = some field := by
  simp only [memberPaths, List.mem_flatMap, List.mem_append, List.mem_map, Prod.exists,
    Path.field.injEq, reduceCtorEq, and_false, exists_false, or_false, ← OrderedMap.get?_isSome_iff,
    Option.isSome_iff_exists, ← OrderedMap.get?_eq_some_iff, field?, class?, Option.bind_eq_bind,
    Option.bind_eq_some_iff]
  constructor
  · intro given
    rcases given with ⟨_, cls, stored, _, ⟨field, found⟩, rfl, rfl⟩
    exact ⟨field, cls, stored, found⟩
  · intro given
    rcases given with ⟨field, cls, stored, found⟩
    exact ⟨owner, cls, stored, key, ⟨field, found⟩, rfl, rfl⟩

theorem mem_memberPaths_method_iff {owner : ClassName} {key : MethodKey}
    : .method owner key ∈ table.memberPaths
      ↔ ∃ method, table.method? owner key = some method := by
  simp only [memberPaths, List.mem_flatMap, List.mem_append, List.mem_map, Prod.exists,
    Path.method.injEq, reduceCtorEq, and_false, exists_false, false_or,
    ← OrderedMap.get?_isSome_iff, Option.isSome_iff_exists, ← OrderedMap.get?_eq_some_iff, method?,
    class?, Option.bind_eq_bind, Option.bind_eq_some_iff]
  constructor
  · intro given
    rcases given with ⟨_, cls, stored, _, ⟨method, found⟩, rfl, rfl⟩
    exact ⟨method, cls, stored, found⟩
  · intro given
    rcases given with ⟨method, cls, stored, found⟩
    exact ⟨owner, cls, stored, key, ⟨method, found⟩, rfl, rfl⟩

theorem Lacks.mem_memberPaths {path : Path} (lacks : table.Lacks path)
    : path ∈ table.memberPaths := by
  cases path with
  | cls | parameter => exact lacks.elim
  | field owner key =>
      obtain ⟨field, stored, _⟩ := lacks
      exact mem_memberPaths_field_iff.mpr ⟨field, stored⟩
  | method owner key =>
      obtain ⟨method, stored, _⟩ := lacks
      exact mem_memberPaths_method_iff.mpr ⟨method, stored⟩

theorem lacksAt_iff {path : Path} : table.lacksAt path = true ↔ table.Lacks path := by
  cases path with
  | cls | parameter => exact iff_of_false Bool.false_ne_true id
  | field owner key =>
      simp only [lacksAt, Lacks, Option.any_eq_true]
      apply exists_congr
      intro field
      refine and_congr_right fun _ => ?_
      rw [Field.lacksDescriptor, Bool.and_eq_true, and_comm]
      cases field.descriptor <;> simp
  | method owner key =>
      simp only [lacksAt, Lacks, Option.any_eq_true]
      apply exists_congr
      intro method
      refine and_congr_right fun stored => ?_
      have parameters_iff
          : (∃ parameter ∈ method.parameters.values, parameter.names.target.isSome = true)
            ↔ ∃ index parameter, table.parameter? owner key index = some parameter
              ∧ parameter.names.target.isSome = true := by
        simp only [OrderedMap.mem_values_iff, parameter?, stored, Option.bind_eq_bind,
          Option.bind_some, exists_and_right.symm]
        exact exists_comm
      rw [Method.lacksDescriptor, Bool.and_eq_true, decide_eq_true_eq, and_comm, Method.isMapped,
        Bool.or_eq_true, List.any_eq_true, parameters_iff]

/-- What is looked at are the first names of the members that lack a descriptor. -/
theorem lacking_eq (coherent : table.Coherent)
    : (table.classes.entries.flatMap fun (owner, cls) => cls.lackingDescriptor.map (owner, ·))
      = (table.memberPaths.filter table.lacksAt).map fun path =>
          (path.owner, path.firstName) := by
  rw [memberPaths, List.filter_flatMap, List.map_flatMap]
  apply List.flatMap_congr
  intro entry listed
  rcases entry with ⟨owner, cls⟩
  have stored : table.class? owner = some cls :=
    (table.classes.get?_eq_some_iff owner cls).mpr listed
  have fields_eq
      : (cls.fields.values.filter Field.lacksDescriptor).map
          (fun field => (field.names.source.map Name.text).getD "")
        = (cls.fields.keys.filter fun key =>
            (cls.fields.get? key).any Field.lacksDescriptor).map fun key => key.name.text := by
    apply OrderedMap.map_filter_values
    intro key field found
    have first := (coherent.field (Option.bind_eq_some_iff.mpr ⟨cls, stored, found⟩)).1
    rw [Names.source_eq_first?, first]
    rfl
  have methods_eq
      : (cls.methods.values.filter Method.lacksDescriptor).map
          (fun method => (method.names.source.map Name.text).getD "")
        = (cls.methods.keys.filter fun key =>
            (cls.methods.get? key).any Method.lacksDescriptor).map fun key => key.name.text := by
    apply OrderedMap.map_filter_values
    intro key method found
    have first := (coherent.method (Option.bind_eq_some_iff.mpr ⟨cls, stored, found⟩)).1
    rw [Names.source_eq_first?, first]
    rfl
  have field_at (key : FieldKey)
      : table.lacksAt (.field owner key) = (cls.fields.get? key).any Field.lacksDescriptor := by
    simp [lacksAt, field?, stored]
  have method_at (key : MethodKey)
      : table.lacksAt (.method owner key) = (cls.methods.get? key).any Method.lacksDescriptor := by
    simp [lacksAt, method?, stored]
  simp only [Class.lackingDescriptor, fields_eq, methods_eq, List.filter_append, List.filter_map,
    List.map_append, List.map_map, Function.comp_def, field_at, method_at, Path.owner,
    Path.firstName]

/-- A check fails at the first member that lacks its descriptor. -/
theorem checkDescriptors_eq_error_iff (coherent : table.Coherent) {failure : Failure}
    : table.checkDescriptors = .error failure
      ↔ ∃ member, table.FirstLacks member
          ∧ failure = .of (.missingDescriptor member.owner member.firstName) := by
  rw [checkDescriptors]
  dsimp only
  rw [lacking_eq coherent]
  cases looked : table.memberPaths.filter table.lacksAt with
  | nil =>
      refine iff_of_false (by simp) ?_
      rintro ⟨member, ⟨before, after, split, lacks, _⟩, _⟩
      have listed := List.mem_filter.mpr ⟨lacks.mem_memberPaths, lacksAt_iff.mpr lacks⟩
      simp [looked] at listed
  | cons first rest =>
      obtain ⟨before, after, split, passed, lacks, _⟩ := List.filter_eq_cons_iff.mp looked
      have first_lacks : table.FirstLacks first :=
        ⟨before, after, split, lacksAt_iff.mp lacks, fun path member =>
          mt lacksAt_iff.mpr (passed path member)⟩
      constructor
      · intro fails
        exact ⟨first, first_lacks, (Except.error.inj fails).symm⟩
      · rintro ⟨member, ⟨before', after', split', lacks', passed'⟩, rfl⟩
        have looked' : table.memberPaths.filter table.lacksAt
            = member :: after'.filter table.lacksAt :=
          List.filter_eq_cons_iff.mpr ⟨before', after', split',
            fun path member => mt lacksAt_iff.mp (passed' path member), lacksAt_iff.mpr lacks', rfl⟩
        obtain ⟨rfl, _⟩ := List.cons.inj (looked.symm.trans looked')
        rfl

/-- A check passes when no member lacks its descriptor. -/
theorem checkDescriptors_eq_ok_iff_lacks (coherent : table.Coherent)
    : table.checkDescriptors = .ok () ↔ ∀ path, ¬ table.Lacks path := by
  rw [checkDescriptors]
  dsimp only
  rw [lacking_eq coherent]
  cases looked : table.memberPaths.filter table.lacksAt with
  | nil =>
      refine iff_of_true rfl fun path lacks => ?_
      have listed := List.mem_filter.mpr ⟨lacks.mem_memberPaths, lacksAt_iff.mpr lacks⟩
      simp [looked] at listed
  | cons first rest =>
      refine iff_of_false (by simp [Outcome.fail]) fun none_lacks => ?_
      have listed : first ∈ table.memberPaths.filter table.lacksAt :=
        looked ▸ List.mem_cons_self
      exact none_lacks first (lacksAt_iff.mp (List.mem_filter.mp listed).2)

end Table

end NameTables
