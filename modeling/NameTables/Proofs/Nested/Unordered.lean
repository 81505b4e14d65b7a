import NameTables.Proofs.Nested.Canonical
import NameTables.Proofs.Table.Agreement

/-! Writing the nested format regardless of the order of entries.
Which classes are around a class, which of them are written and under which full names is told by
the names at the paths of a table. What is written is then put in the usual order, which leaves no
trace of the order that it had in the table.
-/

namespace NameTables

namespace Table

section

variable {n : Nat} {table table' : Table n}

theorem mem_keys_iff_names? {owner : ClassName}
    : owner ∈ table.classes.keys ↔ (table.names? (.cls owner)).isSome = true := by
  rw [names?_cls, Option.isSome_map]
  exact (table.classes.get?_isSome_iff owner).symm

variable (same : ∀ path, table.names? path = table'.names? path)

include same

/-- Tables with the same names at every path have the same classes. -/
theorem mem_keys_iff_of_names? {owner : ClassName}
    : owner ∈ table.classes.keys ↔ owner ∈ table'.classes.keys := by
  rw [mem_keys_iff_names?, mem_keys_iff_names?, same]

theorem outer?_of_names? (name : ClassName)
    : table.outer? name = table'.outer? name := by
  apply List.find?_congr
  intro around _
  rw [Bool.eq_iff_iff, contains_iff, contains_iff]
  exact mem_keys_iff_of_names? same

/-- Tables with the same names at every path have the same number of classes. -/
theorem length_keys_of_names?
    : table.classes.keys.length = table'.classes.keys.length :=
  ((List.perm_ext_iff_of_nodup table.classes.keys_nodup table'.classes.keys_nodup).mpr
    fun _ => mem_keys_iff_of_names? same).length_eq

end

section

variable {table table' : Table 2}

theorem target?_eq_targetAt? (table : Table 2) (name : ClassName)
    : table.target? name = table.targetAt? (.cls name) := by
  rw [targetAt?, names?_cls, Option.bind_map]
  rfl

variable (same : ∀ path, table.names? path = table'.names? path)

include same

/-- Names carry over from the same classes, by induction outwards. -/
theorem fullTarget_of_names? (name : ClassName)
    : table.fullTarget name = table'.fullTarget name := by
  have target?_eq (name : ClassName) : table'.target? name = table.target? name := by
    rw [target?_eq_targetAt?, target?_eq_targetAt?, targetAt?, targetAt?, same]
  fun_induction Table.fullTarget table name with
  | case1 name renamed named =>
      rw [fullTarget_of_target? ((target?_eq name).trans named)]
  | case2 name unnamed outer found shorter ih =>
      rw [fullTarget_of_outer? ((target?_eq name).trans unnamed)
        ((outer?_of_names? same name).symm.trans found), ih]
  | case3 name unnamed absent =>
      rw [fullTarget_of_outer?_eq_none ((target?_eq name).trans unnamed)
        ((outer?_of_names? same name).symm.trans absent)]

theorem written_of_names?
    : table.written = table'.written := by
  have target_eq (path : Path) : table.targetAt? path = table'.targetAt? path := by
    rw [targetAt?, targetAt?, same]
  funext path
  rw [written, written]
  cases path with
  | cls owner => rw [writtenNames, writtenNames, fullTarget_of_names? same]
  | field | method | parameter => rw [writtenNames, writtenNames, target_eq]

end

end Table

namespace Nested

variable {table table' : Table 2}

section

variable (same : ∀ path, table.names? path = table'.names? path)

include same

theorem Kept.field_of_names? {owner : ClassName} {key : FieldKey}
    (kept : Kept table (.field owner key))
    : Kept table' (.field owner key) := by
  obtain ⟨field, stored, named⟩ := kept
  have found : table.names? (.field owner key) = some field.names :=
    Option.map_eq_some_iff.mpr ⟨field, stored, rfl⟩
  exact kept_of_target ((same _).symm.trans found) named

theorem Kept.parameter_of_names? {owner : ClassName} {key : MethodKey} {index : UInt64}
    (kept : Kept table (.parameter owner key index))
    : Kept table' (.parameter owner key index) := by
  obtain ⟨parameter, stored, named⟩ := kept
  have found : table.names? (.parameter owner key index) = some parameter.names :=
    Option.map_eq_some_iff.mpr ⟨parameter, stored, rfl⟩
  exact kept_of_target ((same _).symm.trans found) named

/-- A method is written because of its own target name or that of a parameter. -/
theorem Kept.method_of_names? {owner : ClassName} {key : MethodKey}
    (kept : Kept table (.method owner key))
    : Kept table' (.method owner key) := by
  obtain ⟨method, stored, mapped⟩ := kept
  rw [Method.isMapped, Bool.or_eq_true, List.any_eq_true] at mapped
  rcases mapped with named | ⟨parameter, member, named⟩
  · have found : table.names? (.method owner key) = some method.names :=
      Option.map_eq_some_iff.mpr ⟨method, stored, rfl⟩
    exact kept_of_target ((same _).symm.trans found) named
  · obtain ⟨index, listed⟩ := OrderedMap.mem_values_iff.mp member
    have parameter_stored : table.parameter? owner key index = some parameter :=
      Option.bind_eq_some_iff.mpr ⟨method, stored, listed⟩
    have parameter_kept : Kept table' (.parameter owner key index) :=
      Kept.parameter_of_names? same ⟨parameter, parameter_stored, named⟩
    exact parameter_kept.above (by simp [Path.above])

/-- A mapped class is written because of its own target name or that of a member. -/
theorem kept_of_isMapped_of_names? {owner : ClassName} {cls : Class 2}
    (stored : table.class? owner = some cls) (mapped : cls.isMapped = true)
    : Kept table' (.cls owner) := by
  rw [Class.isMapped, Bool.or_eq_true, Bool.or_eq_true, List.any_eq_true, List.any_eq_true]
    at mapped
  rcases mapped with (named | ⟨field, listed, named⟩) | ⟨method, listed, mapped⟩
  · have found : table.names? (.cls owner) = some cls.names :=
      Option.map_eq_some_iff.mpr ⟨cls, stored, rfl⟩
    exact kept_of_target ((same _).symm.trans found) named
  · obtain ⟨key, found⟩ := OrderedMap.mem_values_iff.mp listed
    have field_stored : table.field? owner key = some field :=
      Option.bind_eq_some_iff.mpr ⟨cls, stored, found⟩
    have field_kept : Kept table' (.field owner key) :=
      Kept.field_of_names? same ⟨field, field_stored, named⟩
    exact field_kept.above (by simp [Path.above])
  · obtain ⟨key, found⟩ := OrderedMap.mem_values_iff.mp listed
    have method_stored : table.method? owner key = some method :=
      Option.bind_eq_some_iff.mpr ⟨cls, stored, found⟩
    have method_kept : Kept table' (.method owner key) :=
      Kept.method_of_names? same ⟨method, method_stored, mapped⟩
    exact method_kept.above (by simp [Path.above])

/-- A class is written because of a mapped class that it is around. -/
theorem Kept.cls_of_names? {owner : ClassName} (kept : Kept table (.cls owner))
    : Kept table' (.cls owner) := by
  obtain ⟨listed, carried⟩ := kept
  obtain ⟨inner, cls, stored, mapped, around⟩ := Table.carries_iff.mp carried
  have inner_kept := kept_of_isMapped_of_names? same stored mapped
  exact ⟨(Table.mem_keys_iff_of_names? same).mp listed,
    Table.carries_of_mem_around inner_kept.2 around⟩

theorem Kept.of_names? {path : Path} (kept : Kept table path) : Kept table' path := by
  cases path with
  | cls owner => exact Kept.cls_of_names? same kept
  | field owner key => exact Kept.field_of_names? same kept
  | method owner key => exact Kept.method_of_names? same kept
  | parameter owner key index => exact Kept.parameter_of_names? same kept

/-- The same entries are written. -/
theorem kept_iff_of_names? {path : Path} : Kept table path ↔ Kept table' path :=
  ⟨Kept.of_names? same, Kept.of_names? fun path => (same path).symm⟩

variable (coherent : table.Coherent) (coherent' : table'.Coherent)

include coherent coherent'

/-- Descriptors are in place for the members that are written, which are the same. -/
theorem checkDescriptors_of_names? (checked : table.checkDescriptors = .ok ())
    : table'.checkDescriptors = .ok () := by
  obtain ⟨fields, methods⟩ := Table.checkDescriptors_eq_ok_iff.mp checked
  refine Table.checkDescriptors_eq_ok_iff.mpr ⟨?_, ?_⟩
  · intro owner key field stored
    have field_eq := coherent.described.field?_eq coherent'.described (same (.field owner key))
    exact fields owner key field (field_eq.trans stored)
  · intro owner key method stored
    have found : table'.names? (.method owner key) = some method.names :=
      Option.map_eq_some_iff.mpr ⟨method, stored, rfl⟩
    rw [← same] at found
    obtain ⟨was, was_stored, _⟩ := Option.map_eq_some_iff.mp found
    have complete := methods owner key was was_stored
    have mapped_eq : was.isMapped = method.isMapped := by
      have kept_iff {table : Table 2} {method : Method 2}
          (stored : table.method? owner key = some method)
          : Kept table (.method owner key) ↔ method.isMapped = true := by
        simp [Kept, stored]
      rw [Bool.eq_iff_iff, ← kept_iff was_stored, ← kept_iff stored]
      exact kept_iff_of_names? same
    rw [Method.lacksDescriptor, (coherent.method was_stored).2] at complete
    rw [Method.lacksDescriptor, (coherent'.method stored).2, ← mapped_eq]
    exact complete

-----------------------------------------------------------------------------------------
-- The usual order
-----------------------------------------------------------------------------------------

theorem classOrder_of_names? (outer : Option ClassName)
    : classOrder table .byName outer = classOrder table' .byName outer := by
  refine eq_of_pairwise (nodup_classOrder coherent outer) (nodup_classOrder coherent' outer) ?_
    (pairwise_classOrder outer) (pairwise_classOrder outer)
  intro owner
  have kept_iff : Kept table (.cls owner) ↔ Kept table' (.cls owner) := kept_iff_of_names? same
  rw [mem_classOrder_iff coherent, mem_classOrder_iff coherent', Table.outer?_of_names? same,
    and_left_comm, and_left_comm (a := owner ∈ table'.classes.keys)]
  exact and_congr_right fun _ => kept_iff

/-- The classes come in the same order, by induction on the depth. -/
theorem preorder_of_names? (depth : Nat) (outer : Option ClassName)
    : preorder table .byName depth outer = preorder table' .byName depth outer := by
  induction depth generalizing outer with
  | zero => rfl
  | succ depth ih => simp only [preorder, classOrder_of_names? same coherent coherent', ih]

theorem fieldOrder_of_names? (owner : ClassName)
    : fieldOrder table .byName owner = fieldOrder table' .byName owner := by
  refine eq_of_pairwise (nodup_fieldOrder coherent owner) (nodup_fieldOrder coherent' owner) ?_
    (pairwise_fieldOrder owner) (pairwise_fieldOrder owner)
  intro key
  rw [mem_fieldOrder_iff coherent, mem_fieldOrder_iff coherent']
  exact kept_iff_of_names? same

theorem parameterOrder_of_names? (owner : ClassName) (key : MethodKey)
    : parameterOrder table owner key = parameterOrder table' owner key := by
  refine eq_of_pairwise (nodup_parameterOrder coherent owner key)
    (nodup_parameterOrder coherent' owner key) ?_
    (pairwise_parameterOrder owner key) (pairwise_parameterOrder owner key)
  intro index
  rw [mem_parameterOrder_iff coherent, mem_parameterOrder_iff coherent']
  exact kept_iff_of_names? same

variable (apart : table.MembersApart)

include apart

/-- Methods with different keys can compare equal, and would keep the order that they have. So they
must be told apart.
-/
theorem methodOrder_of_names? (owner : ClassName)
    : methodOrder table .byName owner = methodOrder table' .byName owner := by
  refine eq_of_pairwise_of_apart (nodup_methodOrder coherent owner)
    (nodup_methodOrder coherent' owner) ?_ ?_
    (pairwise_methodOrder owner) (pairwise_methodOrder owner)
  · intro key
    rw [mem_methodOrder_iff coherent, mem_methodOrder_iff coherent']
    exact kept_iff_of_names? same
  · intro key member key' member' compares
    obtain ⟨method, stored, _⟩ := (mem_methodOrder_iff coherent).mp member
    obtain ⟨method', stored', _⟩ := (mem_methodOrder_iff coherent).mp member'
    exact (coherent.eq_of_methodName_eq apart stored stored'
      (Std.LawfulEqCmp.eq_of_compare compares)).2

/-- The same entries are written in the same order. -/
theorem paths_of_names?
    : paths table .byName = paths table' .byName := by
  have methods_eq : methodPaths table = methodPaths table' := by
    funext owner key
    rw [methodPaths, methodPaths, parameterOrder_of_names? same coherent coherent']
  have classes_eq : classPaths table .byName = classPaths table' .byName := by
    funext owner
    rw [classPaths, classPaths, methodOrder_of_names? same coherent coherent' apart, methods_eq,
      fieldOrder_of_names? same coherent coherent']
  rw [paths, paths, Table.length_keys_of_names? same, preorder_of_names? same coherent coherent',
    classes_eq]

theorem body_of_names? (checked : table.checkDescriptors = .ok ())
    : body table .byName = body table' .byName := by
  rw [body_eq coherent checked, body_eq coherent'
    (checkDescriptors_of_names? same coherent coherent' checked),
    paths_of_names? same coherent coherent' apart, Table.written_of_names? same]

end

end Nested

end NameTables
