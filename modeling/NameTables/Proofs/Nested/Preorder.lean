import Mathlib
import NameTables.Proofs.Nested.Listing
import NameTables.Proofs.Nested.RoundTrip
import NameTables.Proofs.Nested.Sorting

/-! The written classes as a forest.
A class lies in another one if steps outwards, from a class to the innermost one around it, lead
there. The writer visits the classes that have mappings in preorder: it finishes a class, and with
it every class that lies in it, before it turns to the next one beside it.
-/

namespace NameTables

namespace Table

variable {table : Table 2}

-----------------------------------------------------------------------------------------
-- Which classes have mappings
-----------------------------------------------------------------------------------------

/-- Steps outwards lead from the class to `outer`. They can be none. -/
def LiesIn (table : Table 2) (name outer : ClassName) : Prop :=
  Relation.ReflTransGen (fun inner around => table.outer? inner = some around) name outer

/-- By induction on the steps. -/
theorem LiesIn.mem_around {name outer : ClassName} (lies : table.LiesIn name outer)
    : outer ∈ name.around := by
  induction lies with
  | refl => exact name.mem_around_self
  | tail _ step ih =>
      exact Name.mem_around_trans ih
        (Name.mem_around_of_mem_enclosing (mem_enclosing_of_outer? step))

theorem LiesIn.mem_keys {name outer : ClassName} (lies : table.LiesIn name outer)
    (stored : name ∈ table.classes.keys)
    : outer ∈ table.classes.keys := by
  cases lies with
  | refl => exact stored
  | tail _ step => exact mem_keys_of_outer? step

/-- A step outwards stays inside every class of the table that is around, so steps lead to each of
them. By induction on the length of the name.
-/
theorem liesIn_of_mem_around {name outer : ClassName} (member : outer ∈ name.around)
    (stored : outer ∈ table.classes.keys)
    : table.LiesIn name outer := by
  rcases List.mem_cons.mp member with rfl | inside
  · exact .refl
  · obtain ⟨next, step, further⟩ := exists_outer?_of_mem inside stored
    have shorter := length_lt_of_outer? step
    exact .head step (liesIn_of_mem_around further stored)
termination_by name.text.toList.length

/-- The class is mapped, or one that lies in it. -/
def HasMappings (table : Table 2) (name : ClassName) : Prop :=
  ∃ inner cls, table.class? inner = some cls ∧ cls.isMapped = true ∧ table.LiesIn inner name

theorem hasMappings_iff {name : ClassName}
    : table.HasMappings name ↔ name ∈ table.classes.keys ∧ table.carries name = true := by
  rw [carries_iff]
  constructor
  · intro given
    rcases given with ⟨inner, cls, stored, mapped, lies⟩
    exact ⟨lies.mem_keys (mem_keys_iff.mpr ⟨cls, stored⟩), inner, cls, stored, mapped,
      lies.mem_around⟩
  · intro given
    rcases given with ⟨listed, inner, cls, stored, mapped, member⟩
    exact ⟨inner, cls, stored, mapped, liesIn_of_mem_around member listed⟩

instance (name : ClassName) : Decidable (table.HasMappings name) :=
  decidable_of_iff (table.classes.contains name = true ∧ table.carries name = true)
    ((and_congr_left' contains_iff).trans hasMappings_iff.symm)

/-- The classes directly in `outer` that have mappings, in the order of the table. -/
def mappedIn (table : Table 2) (outer : Option ClassName) : List (Class 2) :=
  table.classes.entries.filterMap fun (name, cls) =>
    if table.outer? name = outer ∧ table.HasMappings name then some cls else none

theorem mem_mappedIn_iff {outer : Option ClassName} {cls : Class 2}
    : cls ∈ table.mappedIn outer
      ↔ ∃ name, table.class? name = some cls ∧ table.outer? name = outer
          ∧ table.HasMappings name := by
  simp only [mappedIn, List.mem_filterMap, Prod.exists, Option.ite_none_right_eq_some,
    Option.some.injEq, class?, OrderedMap.get?_eq_some_iff]
  constructor
  · intro given
    rcases given with ⟨name, _, listed, found, rfl⟩
    exact ⟨name, listed, found⟩
  · intro given
    rcases given with ⟨name, listed, found⟩
    exact ⟨name, cls, listed, found, rfl⟩

/-- The search of the writer finds the classes that have mappings. -/
theorem Coherent.filter_inside_eq (coherent : table.Coherent) (outer : Option ClassName)
    : ((Nesting.ofTable table).inside outer).filter (Nesting.ofTable table).isMapped
      = table.mappedIn outer := by
  have inside_eq : (Nesting.ofTable table).inside outer
      = table.classes.entries.filterMap fun (name, cls) =>
          if table.outer? name = outer then some cls else none :=
    List.filterMap_map
  rw [inside_eq, mappedIn, ← List.filterMap_eq_filter, List.filterMap_filterMap]
  apply List.filterMap_congr
  intro entry listed
  rcases entry with ⟨name, cls⟩
  have stored : table.class? name = some cls := (table.classes.get?_eq_some_iff name cls).mpr listed
  have same : (Nesting.ofTable table).isMapped cls = true ↔ table.HasMappings name := by
    rw [Nesting.isMapped_iff coherent stored, hasMappings_iff]
    exact (and_iff_right (mem_keys_iff.mpr ⟨cls, stored⟩)).symm
  by_cases found : table.outer? name = outer
  · by_cases mapped : table.HasMappings name
    · simp [found, mapped, same.mpr mapped]
    · simp [found, mapped, mt same.mp mapped]
  · simp [found]

end Table

namespace Nested

-----------------------------------------------------------------------------------------
-- The preorder
-----------------------------------------------------------------------------------------

/-- (MethodBlock owner method paths) says that the record of the method is followed by those of its
parameters that have a target name, by index.
-/
inductive MethodBlock (owner : ClassName) (method : Method 2) : List Path → Prop
  | intro {key : MethodKey} {indices : List UInt64}
      (keyed : method.key? = some key)
      (named
        : ∀ index, index ∈ indices
          ↔ ∃ parameter ∈ method.parameters.values,
              parameter.index = index ∧ parameter.names.target.isSome = true)
      (ascending : indices.Pairwise fun index index' => index < index')
      : MethodBlock owner method (.method owner key :: indices.map (.parameter owner key))

/-- (MemberBlock arrangement owner cls paths) says that the mapped methods, each with its
parameters, are followed by the fields that have a target name, both in the order of the
arrangement.
-/
inductive MemberBlock (arrangement : Arrangement) (owner : ClassName) (cls : Class 2)
    : List Path → Prop
  | intro {methods : List (Member (Method 2))} {fields : List (Member (Field 2))}
      {blocks : List (List Path)} {fieldPaths : List Path}
      (methods_sorted
        : StablySorted arrangement.methods
            ((cls.methods.values.filter Method.isMapped).map (Member.mk owner)) methods)
      (fields_sorted
        : StablySorted arrangement.fields
            ((cls.fields.values.filter fun field => field.names.target.isSome).map
              (Member.mk owner)) fields)
      (each_method
        : List.Forall₂ (fun method block => MethodBlock owner method.item block) methods blocks)
      (each_field
        : List.Forall₂
            (fun field path => ∃ key, field.item.key? = some key ∧ path = .field owner key)
            fields fieldPaths)
      : MemberBlock arrangement owner cls (blocks.flatten ++ fieldPaths)

/-- (Visits table arrangement classes paths) says that the paths are those of the classes, one class
behind the other. A class is followed by its members, then by everything of the classes directly in
it that have mappings, in the order of the arrangement.
-/
inductive Visits (table : Table 2) (arrangement : Arrangement)
    : List (Class 2) → List Path → Prop
  | done : Visits table arrangement [] []
  | cls {owner : ClassName} {cls : Class 2} {inner later : List (Class 2)}
      {members below after : List Path}
      (stored : table.class? owner = some cls)
      (own : MemberBlock arrangement owner cls members)
      (inner_sorted : StablySorted arrangement.classes (table.mappedIn (some owner)) inner)
      (nested : Visits table arrangement inner below)
      (rest : Visits table arrangement later after)
      : Visits table arrangement (cls :: later) (.cls owner :: members ++ below ++ after)

variable {table : Table 2} {arrangement : Arrangement}

/-- Items that each tell a key go with what is made of their keys, by list induction. -/
theorem forall₂_filterMap {α β γ : Type} {items : List α} {key? : α → Option β} {make : β → γ}
    {made : α → γ → Prop}
    (keyed : ∀ item ∈ items, ∃ key, key? item = some key ∧ made item (make key))
    : List.Forall₂ made items ((items.filterMap key?).map make) := by
  induction items with
  | nil => exact .nil
  | cons item items ih =>
      obtain ⟨key, found, here⟩ := keyed item List.mem_cons_self
      rw [List.filterMap_cons_some found, List.map_cons]
      exact .cons here (ih fun item member => keyed item (List.mem_cons_of_mem _ member))

theorem ascending_parameterOrder (coherent : table.Coherent) (owner : ClassName) (key : MethodKey)
    : (parameterOrder table owner key).Pairwise fun index index' => index < index' := by
  refine (pairwise_parameterOrder owner key).imp₂ ?_ (nodup_parameterOrder coherent owner key)
  intro index index' le different
  exact UInt64.lt_of_le_of_ne (Std.isLE_compare.mp le) different

theorem methodBlock_methodPaths (coherent : table.Coherent) {owner : ClassName} {key : MethodKey}
    {method : Method 2} (stored : table.method? owner key = some method)
    : MethodBlock owner method (methodPaths table owner key) := by
  refine .intro (coherent.method_key? stored) ?_ (ascending_parameterOrder coherent owner key)
  intro index
  rw [parameterOrder, Table.parametersOf_of_method? stored]
  simp only [sortBy, List.mem_map, List.mem_mergeSort, List.mem_filter]
  constructor
  · intro given
    rcases given with ⟨parameter, ⟨listed, mapped⟩, same⟩
    exact ⟨parameter, listed, same, mapped⟩
  · intro given
    rcases given with ⟨parameter, listed, same, mapped⟩
    exact ⟨parameter, ⟨listed, mapped⟩, same⟩

theorem memberBlock_classPaths [Std.TransCmp arrangement.fields] [Std.TransCmp arrangement.methods]
    (coherent : table.Coherent) {owner : ClassName} {cls : Class 2}
    (stored : table.class? owner = some cls)
    : MemberBlock arrangement owner cls
        ((methodOrder table arrangement owner).flatMap (methodPaths table owner)
          ++ (fieldOrder table arrangement owner).map (.field owner)) := by
  rw [methodOrder, fieldOrder, Table.methodsOf_of_class? stored, Table.fieldsOf_of_class? stored,
    List.flatMap_def]
  refine .intro (stablySorted_sortBy _) (stablySorted_sortBy _) ?_ ?_
  · apply forall₂_filterMap
    intro member sorted
    obtain ⟨key, method, method_stored, rfl⟩ := exists_of_mem_sortMethods stored sorted
    exact ⟨key, coherent.method_key? method_stored,
      methodBlock_methodPaths coherent method_stored⟩
  · apply forall₂_filterMap
    intro member sorted
    obtain ⟨key, field, field_stored, _, rfl⟩ := exists_of_mem_sortFields stored sorted
    have keyed := coherent.field_key? field_stored
    exact ⟨key, keyed, key, keyed, rfl⟩

theorem mem_written_classes_iff (coherent : table.Coherent) {owner : ClassName}
    : owner ∈ (paths table arrangement).filterMap Path.class? ↔ table.HasMappings owner := by
  have kept : Path.cls owner ∈ paths table arrangement ↔ table.HasMappings owner :=
    (mem_paths_iff coherent).trans Table.hasMappings_iff.symm
  rw [List.mem_filterMap, ← kept]
  constructor
  · intro given
    rcases given with ⟨path, member, same⟩
    cases path with
    | cls => exact Option.some.inj same ▸ member
    | field | method | parameter => cases same
  · exact fun member => ⟨_, member, rfl⟩

theorem nodup_written_classes (coherent : table.Coherent)
    : ((paths table arrangement).filterMap Path.class?).Nodup := by
  refine (nodup_paths coherent).filterMap ?_
  intro path path' owner same same'
  cases path with
  | cls =>
      cases path' with
      | cls => exact congrArg Path.cls ((Option.some.inj same).trans (Option.some.inj same').symm)
      | field | method | parameter => cases same'
  | field | method | parameter => cases same

section Ordered

variable [Std.TransCmp arrangement.classes] [Std.TransCmp arrangement.fields]
  [Std.TransCmp arrangement.methods]

/-- Classes are visited one by one, each with all that lies in it, by list induction. -/
theorem visits_classes (coherent : table.Coherent) {order : ClassName → List ClassName}
    {classes : List (Class 2)}
    (each
      : ∀ cls ∈ classes, ∃ owner, table.class? owner = some cls
          ∧ Visits table arrangement
              (sortBy arrangement.classes (table.mappedIn (some owner)))
              ((order owner).flatMap (classPaths table arrangement)))
    : Visits table arrangement classes
        (((classes.filterMap fun cls => cls.names.source).flatMap fun owner =>
          owner :: order owner).flatMap (classPaths table arrangement)) := by
  induction classes with
  | nil => exact .done
  | cons cls later ih =>
      obtain ⟨owner, stored, below⟩ := each cls List.mem_cons_self
      have after := ih fun other member => each other (List.mem_cons_of_mem cls member)
      have named : cls.names.source = some owner := source_eq coherent stored
      simp only [List.filterMap_cons, named, List.flatMap_cons, List.flatMap_append, classPaths]
      exact .cls stored (memberBlock_classPaths coherent stored) (stablySorted_sortBy _) below after

/-- Everything in `outer` is visited, by induction on the depth that the search may go. -/
theorem visits_preorder (coherent : table.Coherent) {depth : Nat} {outer : Option ClassName}
    (enough : Enough table depth outer)
    : Visits table arrangement (sortBy arrangement.classes (table.mappedIn outer))
        ((preorder table arrangement depth outer).flatMap (classPaths table arrangement)) := by
  induction depth generalizing outer with
  | zero =>
      have nothing : table.mappedIn outer = [] := by
        refine List.eq_nil_iff_forall_not_mem.mpr fun cls member => ?_
        obtain ⟨name, stored, found, _⟩ := Table.mem_mappedIn_iff.mp member
        exact Nat.not_lt_zero _ (enough name (Table.mem_keys_iff.mpr ⟨cls, stored⟩) found)
      rw [nothing, preorder, sortBy, List.mergeSort_nil]
      exact .done
  | succ depth ih =>
      rw [preorder, classOrder, Arrangement.sortClasses, coherent.filter_inside_eq]
      apply visits_classes coherent
      intro cls sorted
      obtain ⟨owner, stored, found, _⟩ :=
        Table.mem_mappedIn_iff.mp (List.mem_mergeSort.mp sorted)
      exact ⟨owner, stored, ih (enough.next (Table.mem_keys_iff.mpr ⟨cls, stored⟩) found)⟩

/-- Whatever the order of classes, fields and methods, a table is written as its forest in preorder.
There is one record for every class that has mappings, and none for any other one.
-/
theorem writeWith_visits (coherent : table.Coherent) (checked : table.checkDescriptors = .ok ())
    (source target : String)
    : ∃ tops visited,
        Format.nested.writeWith table source target arrangement
            = .ok (Row.renderAll
                (headerRow source target :: visited.map fun path => (table.written path).row))
          ∧ StablySorted arrangement.classes (table.mappedIn none) tops
          ∧ Visits table arrangement tops visited
          ∧ (visited.filterMap Path.class?).Nodup
          ∧ ∀ owner, owner ∈ visited.filterMap Path.class? ↔ table.HasMappings owner := by
  refine ⟨_, paths table arrangement, ?_, stablySorted_sortBy _,
    visits_preorder coherent (enough_size none), nodup_written_classes coherent,
    fun owner => mem_written_classes_iff coherent⟩
  rw [writeWith_eq_ok_iff, body_eq coherent checked, List.map_map]
  exact ⟨checked, rfl⟩

end Ordered

/-- The classes and the parameters stand in no order. Two classes are written for the sake of the
one in them, and one is not written.
-/
def unsortedForest : Table 2 :=
  (Table.empty ⟨#v["official", "readable"]⟩).declareAll
    [⟨.cls ⟨"z"⟩, .pair (some ⟨"z"⟩) (some ⟨"Z"⟩)⟩,
      ⟨.cls ⟨"a$b$c"⟩, .pair (some ⟨"a$b$c"⟩) none⟩,
      ⟨.cls ⟨"a$b"⟩, .pair (some ⟨"a$b"⟩) none⟩,
      ⟨.cls ⟨"a$d"⟩, .pair (some ⟨"a$d"⟩) none⟩,
      ⟨.cls ⟨"a"⟩, .pair (some ⟨"a"⟩) none⟩,
      ⟨.field ⟨"a$b$c"⟩ ⟨⟨"x"⟩, some ⟨"I"⟩⟩, .pair (some ⟨"x"⟩) (some ⟨"count"⟩)⟩,
      ⟨.method ⟨"a$b$c"⟩ ⟨⟨"m"⟩, ⟨"(II)V"⟩⟩, .pair (some ⟨"m"⟩) none⟩,
      ⟨.parameter ⟨"a$b$c"⟩ ⟨⟨"m"⟩, ⟨"(II)V"⟩⟩ 2, .pair none (some ⟨"to"⟩)⟩,
      ⟨.parameter ⟨"a$b$c"⟩ ⟨⟨"m"⟩, ⟨"(II)V"⟩⟩ 1, .pair none (some ⟨"from"⟩)⟩]

/-- Classes and parameters are put in order, and each class comes behind the one that it lies in. -/
theorem paths_unsortedForest
    : paths unsortedForest .byName
      = [.cls ⟨"a"⟩, .cls ⟨"a$b"⟩, .cls ⟨"a$b$c"⟩, .method ⟨"a$b$c"⟩ ⟨⟨"m"⟩, ⟨"(II)V"⟩⟩,
        .parameter ⟨"a$b$c"⟩ ⟨⟨"m"⟩, ⟨"(II)V"⟩⟩ 1, .parameter ⟨"a$b$c"⟩ ⟨⟨"m"⟩, ⟨"(II)V"⟩⟩ 2,
        .field ⟨"a$b$c"⟩ ⟨⟨"x"⟩, some ⟨"I"⟩⟩, .cls ⟨"z"⟩] := by
  cbv

def unsortedForestText : String :=
  "tiny\t2\t0\tx\ty\nc\ta\ta\nc\ta$b\ta$b\nc\ta$b$c\ta$b$c\n"
    ++ "\tm\t(II)V\tm\tm\n\t\tp\t1\t\tfrom\n\t\tp\t2\t\tto\n\tf\tI\tx\tcount\nc\tz\tZ\n"

theorem writeWith_visits_unsortedForest
    : unsortedForest.Coherent
      ∧ unsortedForest.checkDescriptors = .ok ()
      ∧ unsortedForest.classes.keys.filter unsortedForest.HasMappings
        = [⟨"z"⟩, ⟨"a$b$c"⟩, ⟨"a$b"⟩, ⟨"a"⟩]
      ∧ Format.nested.writeWith unsortedForest "x" "y" .byName = .ok unsortedForestText
      ∧ ∃ tops visited,
          Format.nested.writeWith unsortedForest "x" "y" .byName
              = .ok (Row.renderAll
                  (headerRow "x" "y" :: visited.map fun path => (unsortedForest.written path).row))
            ∧ StablySorted Arrangement.byName.classes (unsortedForest.mappedIn none) tops
            ∧ Visits unsortedForest .byName tops visited
            ∧ (visited.filterMap Path.class?).Nodup
            ∧ ∀ owner, owner ∈ visited.filterMap Path.class?
              ↔ unsortedForest.HasMappings owner := by
  have coherent : unsortedForest.Coherent := by
    apply Table.declareAll_coherent _ (by decide)
    simp [Path.Fits, Names.first?, Names.pair]
  have checked : unsortedForest.checkDescriptors = .ok () := by decide +kernel
  have writes : Format.nested.writeWith unsortedForest "x" "y" .byName
      = .ok unsortedForestText := by
    refine writeWith_eq_ok_iff.mpr ⟨checked, ?_⟩
    rw [body_eq coherent checked, paths_unsortedForest]
    decide +kernel
  exact ⟨coherent, checked, by decide +kernel, writes,
    writeWith_visits coherent checked "x" "y"⟩

end Nested

end NameTables
