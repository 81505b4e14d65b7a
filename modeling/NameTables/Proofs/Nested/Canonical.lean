import Mathlib.Data.List.Find
import NameTables.Proofs.Nested.RoundTrip
import NameTables.Proofs.Nested.Sorting

/-! Writing once more what was read.
The table that is read from a written file has other entries than the one that was written: classes
without mappings are gone, and full names and fallback names are stored. All the same it is written
as it was, since every class around a written one is written too, and what stands in order stays in
order.
-/

namespace NameTables

namespace Nested

variable {table : Table 2} {arrangement : Arrangement} {labels : Labels 2}

/-- An entry with a target name is written. -/
theorem kept_of_target {path : Path} {names : Names 2 path.kind}
    (found : table.names? path = some names) (named : names.target.isSome = true)
    : Kept table path := by
  cases path with
  | cls owner =>
      obtain ⟨cls, stored, rfl⟩ := Option.map_eq_some_iff.mp found
      exact kept_of_isMapped stored (by simp [Class.isMapped, named])
  | field owner key =>
      obtain ⟨field, stored, rfl⟩ := Option.map_eq_some_iff.mp found
      exact ⟨field, stored, named⟩
  | method owner key =>
      obtain ⟨method, stored, rfl⟩ := Option.map_eq_some_iff.mp found
      exact ⟨method, stored, by simp [Method.isMapped, named]⟩
  | parameter owner key index =>
      obtain ⟨parameter, stored, rfl⟩ := Option.map_eq_some_iff.mp found
      exact ⟨parameter, stored, named⟩

/-- Whatever is written has a target name there. -/
theorem Kept.isSome_target {path : Path} (kept : Kept table path)
    : (table.writtenNames path).target.isSome = true := by
  cases path with
  | cls | method => rfl
  | field owner key =>
      obtain ⟨field, stored, named⟩ := kept
      have target_eq : table.targetAt? (.field owner key) = field.names.target :=
        Table.targetAt?_of_names? (Option.map_eq_some_iff.mpr ⟨field, stored, rfl⟩)
      rw [Table.writtenNames, target_eq]
      exact named
  | parameter owner key index =>
      obtain ⟨parameter, stored, named⟩ := kept
      have target_eq : table.targetAt? (.parameter owner key index) = parameter.names.target :=
        Table.targetAt?_of_names? (Option.map_eq_some_iff.mpr ⟨parameter, stored, rfl⟩)
      rw [Table.writtenNames, target_eq]
      exact named

/-- What was written is written again. -/
theorem kept_reread_iff (coherent : table.Coherent) {path : Path}
    : Kept (reread table arrangement labels) path ↔ Kept table path := by
  constructor
  · intro kept
    obtain ⟨names, found⟩ := kept.exists_names?
    exact ((names?_reread_eq_some_iff coherent).mp found).1
  · intro kept
    exact kept_of_target ((names?_reread_eq_some_iff coherent).mpr ⟨kept, rfl⟩) kept.isSome_target

theorem mem_keys_reread_iff (coherent : table.Coherent) {owner : ClassName}
    : owner ∈ (reread table arrangement labels).classes.keys ↔ Kept table (.cls owner) := by
  constructor
  · intro listed
    obtain ⟨cls, stored⟩ := Table.mem_keys_iff.mp listed
    have found : (reread table arrangement labels).names? (.cls owner) = some cls.names :=
      Option.map_eq_some_iff.mpr ⟨cls, stored, rfl⟩
    exact ((names?_reread_eq_some_iff coherent).mp found).1
  · intro kept
    exact ((kept_reread_iff coherent).mpr kept).1

/-- The names that are written are the same again. -/
theorem writtenNames_reread (coherent : table.Coherent) {path : Path} (kept : Kept table path)
    : (reread table arrangement labels).writtenNames path = table.writtenNames path := by
  have target_eq : (reread table arrangement labels).targetAt? path
      = (table.writtenNames path).target :=
    Table.targetAt?_of_names? ((names?_reread_eq_some_iff coherent).mpr ⟨kept, rfl⟩)
  cases path with
  | cls owner =>
      have target?_eq : (reread table arrangement labels).target? owner
          = some (table.fullTarget owner) := by
        rw [Table.targetAt?, Table.names?_cls, Option.bind_map] at target_eq
        exact target_eq
      rw [Table.writtenNames, Table.writtenNames, Table.fullTarget_of_target? target?_eq]
  | field | method | parameter =>
      rw [Table.writtenNames, target_eq]
      rfl

/-- Descriptors are still in place. -/
theorem checkDescriptors_reread (coherent : table.Coherent)
    (checked : table.checkDescriptors = .ok ())
    : (reread table arrangement labels).checkDescriptors = .ok () := by
  have again := reread_coherent table arrangement labels
  obtain ⟨fields, methods⟩ := Table.checkDescriptors_eq_ok_iff.mp checked
  refine Table.checkDescriptors_eq_ok_iff.mpr ⟨?_, ?_⟩
  · intro owner key field stored
    have found : (reread table arrangement labels).names? (.field owner key) = some field.names :=
      Option.map_eq_some_iff.mpr ⟨field, stored, rfl⟩
    obtain ⟨was, was_stored, named⟩ := ((names?_reread_eq_some_iff coherent).mp found).1
    have complete := fields owner key was was_stored
    rw [Field.lacksDescriptor, named, Bool.and_true, (coherent.field was_stored).2] at complete
    rw [Field.lacksDescriptor, (again.field stored).2, complete, Bool.false_and]
  · intro owner key method stored
    have found : (reread table arrangement labels).names? (.method owner key)
        = some method.names :=
      Option.map_eq_some_iff.mpr ⟨method, stored, rfl⟩
    obtain ⟨was, was_stored, mapped⟩ := ((names?_reread_eq_some_iff coherent).mp found).1
    have complete := methods owner key was was_stored
    rw [Method.lacksDescriptor, mapped, Bool.and_true, (coherent.method was_stored).2] at complete
    rw [Method.lacksDescriptor, (again.method stored).2, complete, Bool.false_and]

-----------------------------------------------------------------------------------------
-- Every class around a written one is written, so nesting stays
-----------------------------------------------------------------------------------------

/-- Every class around a written one is there again, so nesting stays. -/
theorem outer?_reread (coherent : table.Coherent) {owner : ClassName}
    (kept : Kept table (.cls owner))
    : (reread table arrangement labels).outer? owner = table.outer? owner := by
  apply List.find?_congr
  intro around member
  rw [Bool.eq_iff_iff, Table.contains_iff, Table.contains_iff, mem_keys_reread_iff coherent]
  constructor
  · exact fun around_kept => around_kept.1
  · intro listed
    exact ⟨listed, Table.carries_of_mem_around kept.2 (Name.mem_around_of_mem_enclosing member)⟩

theorem classOrder_reread (coherent : table.Coherent) (outer : Option ClassName)
    : classOrder (reread table .byName labels) .byName outer = classOrder table .byName outer := by
  have again := reread_coherent table .byName labels
  refine eq_of_pairwise (nodup_classOrder again outer) (nodup_classOrder coherent outer) ?_
    (pairwise_classOrder outer) (pairwise_classOrder outer)
  intro owner
  rw [mem_classOrder_iff again, mem_classOrder_iff coherent]
  constructor
  · intro given
    rcases given with ⟨listed, found, _⟩
    have kept := (mem_keys_reread_iff coherent).mp listed
    exact ⟨kept.1, (outer?_reread coherent kept).symm.trans found, kept.2⟩
  · intro given
    rcases given with ⟨listed, found, carried⟩
    have kept : Kept table (.cls owner) := ⟨listed, carried⟩
    obtain ⟨listed_again, carried_again⟩ := (kept_reread_iff coherent).mpr kept
    exact ⟨listed_again, (outer?_reread coherent kept).trans found, carried_again⟩

/-- To look deeper than enough finds nothing more, by induction on the depth. -/
theorem preorder_of_enough (coherent : table.Coherent) {depth : Nat} {outer : Option ClassName}
    (enough : Enough table depth outer) (more : Nat)
    : preorder table arrangement (depth + more) outer = preorder table arrangement depth outer := by
  induction depth generalizing outer with
  | zero =>
      have nothing : classOrder table arrangement outer = [] := by
        rw [List.eq_nil_iff_forall_not_mem]
        intro top member
        obtain ⟨listed, found, _⟩ := (mem_classOrder_iff coherent).mp member
        exact Nat.not_lt_zero _ (enough top listed found)
      cases more with
      | zero => rfl
      | succ more => rw [Nat.zero_add, preorder, preorder, nothing, List.flatMap_nil]
  | succ depth ih =>
      rw [Nat.add_right_comm, preorder, preorder]
      apply List.flatMap_congr
      intro top member
      obtain ⟨listed, found, _⟩ := (mem_classOrder_iff coherent).mp member
      rw [ih (enough.next listed found)]

/-- Classes are written in their order again. There are fewer of them, which still is enough for
the depth of what is left.
-/
theorem preorder_reread (coherent : table.Coherent)
    : preorder (reread table .byName labels) .byName
        (reread table .byName labels).classes.keys.length none
      = preorder table .byName table.classes.keys.length none := by
  have same (depth : Nat) (outer : Option ClassName)
      : preorder (reread table .byName labels) .byName depth outer
        = preorder table .byName depth outer := by
    induction depth generalizing outer with
    | zero => rfl
    | succ depth ih => simp only [preorder, classOrder_reread coherent, ih]
  -- Both orders are the same at one depth, and more depth than a table has classes adds nothing.
  have subset : (reread table .byName labels).classes.keys ⊆ table.classes.keys :=
    fun owner listed => ((mem_keys_reread_iff coherent).mp listed).1
  have fewer := (reread table .byName labels).classes.keys_nodup.length_le_of_subset subset
  obtain ⟨more, size⟩ := Nat.exists_eq_add_of_le fewer
  rw [← preorder_of_enough (reread_coherent table .byName labels) (enough_size none) more, ← size,
    same]

-----------------------------------------------------------------------------------------
-- What stands in order stays in order
-----------------------------------------------------------------------------------------

theorem fieldOrder_reread (coherent : table.Coherent) (owner : ClassName)
    : fieldOrder (reread table .byName labels) .byName owner = fieldOrder table .byName owner := by
  have again := reread_coherent table .byName labels
  refine eq_of_pairwise (nodup_fieldOrder again owner) (nodup_fieldOrder coherent owner) ?_
    (pairwise_fieldOrder owner) (pairwise_fieldOrder owner)
  intro key
  rw [mem_fieldOrder_iff again, mem_fieldOrder_iff coherent]
  exact kept_reread_iff coherent

theorem parameterOrder_reread (coherent : table.Coherent) (owner : ClassName) (key : MethodKey)
    : parameterOrder (reread table arrangement labels) owner key
      = parameterOrder table owner key := by
  have again := reread_coherent table arrangement labels
  refine eq_of_pairwise (nodup_parameterOrder again owner key)
    (nodup_parameterOrder coherent owner key) ?_
    (pairwise_parameterOrder owner key) (pairwise_parameterOrder owner key)
  intro index
  rw [mem_parameterOrder_iff again, mem_parameterOrder_iff coherent]
  exact kept_reread_iff coherent

theorem filterMap_methodKey?_methodPaths (owner : ClassName) (key : MethodKey)
    : (methodPaths table owner key).filterMap (Path.methodKey? owner)
      = key :: (parameterOrder table owner key).map fun _ => key := by
  simp [methodPaths, Path.methodKey?, Function.comp_def]

theorem filterMap_methodKey?_classPaths (owner : ClassName)
    : (classPaths table arrangement owner).filterMap (Path.methodKey? owner)
      = (methodOrder table arrangement owner).flatMap fun key =>
          key :: (parameterOrder table owner key).map fun _ => key := by
  rw [classPaths, List.filterMap_append, List.filterMap_cons, List.filterMap_flatMap]
  simp only [filterMap_methodKey?_methodPaths]
  simp [Path.methodKey?]

theorem filterMap_methodKey?_classPaths_of_ne {owner other : ClassName} (different : other ≠ owner)
    : (classPaths table arrangement other).filterMap (Path.methodKey? owner) = [] := by
  rw [List.filterMap_eq_nil_iff]
  intro path member
  have elsewhere : path.owner ≠ owner := owner_of_mem_classPaths member ▸ different
  cases path with
  | cls | field => rfl
  | method | parameter => exact if_neg elsewhere

/-- A method is first declared by itself, so methods are read in the order in which they were
written.
-/
theorem methodKeys_reread (coherent : table.Coherent) (owner : ClassName)
    : ((reread table arrangement labels).methodsOf owner).keys
      = methodOrder table arrangement owner := by
  have keys_eq : ((reread table arrangement labels).methodsOf owner).keys
      = ((paths table arrangement).filterMap (Path.methodKey? owner)).eraseDups := by
    have run := Table.methodKeys_applyAll (Table.empty labels)
      (((paths table arrangement).map table.written).map Declaration.edit) owner
    rw [← Table.declareAll_eq_applyAll, List.filterMap_map, List.filterMap_map] at run
    exact run
  have visited : (paths table arrangement).filterMap (Path.methodKey? owner)
      = (methodOrder table arrangement owner).flatMap fun key =>
          key :: (parameterOrder table owner key).map fun _ => key := by
    rw [paths, List.filterMap_flatMap]
    by_cases listed : owner ∈ preorder table arrangement table.classes.keys.length none
    · have nodup : ((preorder table arrangement table.classes.keys.length none).map id).Nodup := by
        rw [List.map_id]
        exact nodup_preorder coherent (enough_size none)
      have nothing : ∀ other ∈ preorder table arrangement table.classes.keys.length none,
          id other ≠ id owner
          → (classPaths table arrangement other).filterMap (Path.methodKey? owner) = [] :=
        fun _ _ different => filterMap_methodKey?_classPaths_of_ne different
      rw [OrderedMap.flatMap_of_unique nodup listed nothing, filterMap_methodKey?_classPaths]
    · have nothing : methodOrder table arrangement owner = [] := by
        rw [List.eq_nil_iff_forall_not_mem]
        intro key member
        have kept := (mem_methodOrder_iff coherent).mp member
        exact listed ((mem_preorder_none_iff coherent).mpr (kept.above (by simp [Path.above])))
      rw [nothing, List.flatMap_nil, List.flatMap_eq_nil_iff]
      intro other member
      exact filterMap_methodKey?_classPaths_of_ne fun same => listed (same ▸ member)
  have once : ((methodOrder table arrangement owner).flatMap fun key =>
        key :: (parameterOrder table owner key).map fun _ => key).eraseDups
      = ((methodOrder table arrangement owner).filterMap some).eraseDups := by
    apply OrderedMap.eraseDups_flatMap
    intro key _
    refine ⟨(parameterOrder table owner key).map fun _ => key, rfl, ?_⟩
    intro other member
    obtain ⟨_, _, rfl⟩ := List.mem_map.mp member
    exact List.mem_singleton_self key
  rw [keys_eq, visited, once, List.filterMap_some,
    OrderedMap.eraseDups_of_nodup (nodup_methodOrder coherent owner)]

/-- Only methods that are mapped are read. -/
theorem isMapped_reread (coherent : table.Coherent) {owner : ClassName} {key : MethodKey}
    {method : Method 2}
    (stored : (reread table arrangement labels).method? owner key = some method)
    : method.isMapped = true := by
  have found : (reread table arrangement labels).names? (.method owner key) = some method.names :=
    Option.map_eq_some_iff.mpr ⟨method, stored, rfl⟩
  have kept := ((names?_reread_eq_some_iff coherent).mp found).1
  obtain ⟨_, same, mapped⟩ := (kept_reread_iff coherent).mpr kept
  obtain rfl := Option.some.inj (stored.symm.trans same)
  exact mapped

/-- Methods with different keys can compare equal. They keep the order in which they were read, and
that is the order in which they were written.
-/
theorem methodOrder_reread (coherent : table.Coherent) (owner : ClassName)
    : methodOrder (reread table .byName labels) .byName owner
      = methodOrder table .byName owner := by
  have again := reread_coherent table .byName labels
  have keyed (key : MethodKey) (method : Method 2)
      (stored : ((reread table .byName labels).methodsOf owner).get? key = some method)
      : method.key? = some key :=
    again.method_key? (Table.get?_methodsOf ▸ stored)
  -- Nothing is dropped and nothing compares the wrong way, so a stable sort moves nothing.
  have all_mapped : ((reread table .byName labels).methodsOf owner).values.filter Method.isMapped
      = ((reread table .byName labels).methodsOf owner).values := by
    rw [List.filter_eq_self]
    intro method member
    obtain ⟨key, found⟩ := OrderedMap.mem_values_iff.mp member
    exact isMapped_reread coherent (Table.get?_methodsOf ▸ found)
  have keys_eq : (((reread table .byName labels).methodsOf owner).values.map
        (Member.mk owner)).filterMap (fun method => method.item.key?)
      = methodOrder table .byName owner := by
    rw [List.filterMap_map, ← methodKeys_reread coherent owner]
    exact OrderedMap.filterMap_values keyed
  have ordered : ((((reread table .byName labels).methodsOf owner).values.map
        (Member.mk owner)).filterMap (fun method => method.item.key?)).Pairwise fun key key' =>
      (MethodKey.compareIn owner key key').isLE = true := by
    rw [keys_eq]
    exact pairwise_methodOrder owner
  rw [methodOrder, all_mapped, Arrangement.sortMethods, sortBy_of_pairwise ?_ ?_ ordered, keys_eq]
  · intro member listed member' listed' key key' found found'
    obtain ⟨method, _, rfl⟩ := List.mem_map.mp listed
    obtain ⟨method', _, rfl⟩ := List.mem_map.mp listed'
    exact Arrangement.byName_methods_eq found found'
  · intro member listed
    obtain ⟨method, stored, rfl⟩ := List.mem_map.mp listed
    obtain ⟨key, found⟩ := OrderedMap.mem_values_iff.mp stored
    exact Option.isSome_of_eq_some (keyed key method found)

theorem classPaths_reread (coherent : table.Coherent) (owner : ClassName)
    : classPaths (reread table .byName labels) .byName owner = classPaths table .byName owner := by
  have methods_eq : methodPaths (reread table .byName labels) owner = methodPaths table owner := by
    funext key
    rw [methodPaths, methodPaths, parameterOrder_reread coherent]
  rw [classPaths, classPaths, methodOrder_reread coherent, methods_eq, fieldOrder_reread coherent]

/-- The same entries are written in the same order. -/
theorem paths_reread (coherent : table.Coherent)
    : paths (reread table .byName labels) .byName = paths table .byName := by
  have classes_eq : classPaths (reread table .byName labels) .byName
      = classPaths table .byName := by
    funext owner
    exact classPaths_reread coherent owner
  rw [paths, paths, preorder_reread coherent, classes_eq]

theorem body_reread (coherent : table.Coherent) (checked : table.checkDescriptors = .ok ())
    : body (reread table .byName labels) .byName = body table .byName := by
  rw [body_eq (reread_coherent ..) (checkDescriptors_reread coherent checked),
    body_eq coherent checked, paths_reread coherent, List.map_map, List.map_map]
  apply List.map_congr_left
  intro path member
  have kept := (mem_paths_iff coherent).mp member
  simp only [Function.comp_apply, Table.written, writtenNames_reread coherent kept]

/-- The table that a written file holds is written as the same text. -/
theorem write_reread (coherent : table.Coherent) {source target : String} {text : String}
    (writes : Format.nested.writeWith table source target .byName = .ok text)
    : Format.nested.write (reread table .byName ⟨#v[source, target]⟩) = .ok text := by
  obtain ⟨checked, rfl⟩ := writeWith_eq_ok_iff.mp writes
  refine writeWith_eq_ok_iff.mpr ⟨checkDescriptors_reread coherent checked, ?_⟩
  rw [labels_reread, body_reread coherent checked]
  rfl

/-- A written file is read, and the table that it holds is written as the same text. -/
theorem write_read_written (coherent : table.Coherent) (plain : table.Plain)
    (words : ∀ label ∈ table.labels.toList, Text.IsWord label) {text : String}
    (writes : Format.nested.write table = .ok text)
    : ∃ result, Format.nested.read 2 text.toUTF8 = .ok result
        ∧ Format.nested.write result = .ok text := by
  have source_word : Text.IsWord table.labels.texts[0] := words _ (by simp [Labels.toList])
  have target_word : Text.IsWord table.labels.texts[1] := words _ (by simp [Labels.toList])
  exact ⟨_, read_eq_reread coherent plain source_word target_word writes,
    write_reread coherent writes⟩

theorem write_read_written_renamedOuter
    : Format.nested.write renamedOuter = .ok ("tiny\t2\t0\tofficial\tnamed\n" ++ renamedOuterLines)
      ∧ ∃ result,
          Format.nested.read 2 ("tiny\t2\t0\tofficial\tnamed\n" ++ renamedOuterLines).toUTF8
            = .ok result
          ∧ Format.nested.write result
            = .ok ("tiny\t2\t0\tofficial\tnamed\n" ++ renamedOuterLines) := by
  have writes : Format.nested.write renamedOuter
      = .ok ("tiny\t2\t0\tofficial\tnamed\n" ++ renamedOuterLines) :=
    writeWith_eq_ok_iff.mpr ⟨rfl, by decide +kernel⟩
  exact ⟨writes, write_read_written renamedOuter_coherent renamedOuter_plain (by decide) writes⟩

end Nested

end NameTables
