import NameTables.Proofs.Nested.Order

/-! Entries in the usual order.
What is written stands in order of its keys. So lists of keys that differ in nothing but their order
do not differ, and sorting what was written once more changes nothing.
-/

namespace NameTables

section

variable {α β : Type} {compare : α → α → Ordering} {compareKey : β → β → Ordering}
  {items : List α} {key? : α → Option β}

theorem isLE_or_isLE [Std.OrientedCmp compare] (a b : α)
    : ((compare a b).isLE || (compare b a).isLE) = true := by
  have swapped : compare b a = (compare a b).swap := Std.OrientedCmp.eq_swap
  rw [swapped]
  cases compare a b <;> rfl

theorem pairwise_sortBy [Std.TransCmp compare] (items : List α)
    : (sortBy compare items).Pairwise fun a a' => (compare a a').isLE = true :=
  List.pairwise_mergeSort (fun _ _ _ => Std.TransCmp.isLE_trans) isLE_or_isLE items

/-- (StablySorted compare items sorted) says that a list has the items in order, and that those that
compare equal stand as they stood before.
-/
structure StablySorted (compare : α → α → Ordering) (items sorted : List α) : Prop where
  perm : sorted.Perm items
  ordered : sorted.Pairwise fun a a' => (compare a a').isLE = true
  stable
    : ∀ a, (sorted.filter fun a' => compare a a' = .eq) = items.filter fun a' => compare a a' = .eq

/-- Items that compare equal to the same one are in order anyhow. -/
theorem pairwise_ties [Std.TransCmp compare] (items : List α) (a : α)
    : (items.filter fun a' => compare a a' = .eq).Pairwise fun a' a'' =>
        (compare a' a'').isLE = true := by
  refine List.pairwise_of_forall_mem_list ?_
  intro a' member a'' member'
  have same : compare a a' = .eq := by simpa using (List.mem_filter.mp member).2
  have same' : compare a a'' = .eq := by simpa using (List.mem_filter.mp member').2
  rw [Std.TransCmp.eq_trans (Std.OrientedCmp.eq_symm same) same']
  rfl

theorem stablySorted_sortBy [Std.TransCmp compare] (items : List α)
    : StablySorted compare items (sortBy compare items) where
  perm := List.mergeSort_perm items _
  ordered := pairwise_sortBy items
  stable a := by
    have kept : (items.filter fun a' => compare a a' = .eq).Sublist (sortBy compare items) :=
      List.sublist_mergeSort (fun _ _ _ => Std.TransCmp.isLE_trans) isLE_or_isLE
        (pairwise_ties items a) List.filter_sublist
    have among := kept.filter fun a' => compare a a' = .eq
    simp only [List.filter_filter, Bool.and_self] at among
    exact (among.eq_of_length ((List.mergeSort_perm items _).filter _).length_eq.symm).symm

/-- Items that compare as their keys put the keys in order. -/
theorem pairwise_filterMap_sortBy [Std.TransCmp compare]
    (keyed
      : ∀ a ∈ items, ∀ a' ∈ items, ∀ key key',
          key? a = some key → key? a' = some key' → compare a a' = compareKey key key')
    : ((sortBy compare items).filterMap key?).Pairwise fun key key' =>
        (compareKey key key').isLE = true := by
  rw [List.pairwise_filterMap]
  refine (pairwise_sortBy items).imp_of_mem ?_
  intro a a' member member' ordered key found key' found'
  rw [← keyed a (List.mem_mergeSort.mp member) a' (List.mem_mergeSort.mp member') key key' found
    found']
  exact ordered

/-- Items that already stand in the order of their keys stay where they are. -/
theorem sortBy_of_pairwise
    (keyed
      : ∀ a ∈ items, ∀ a' ∈ items, ∀ key key',
          key? a = some key → key? a' = some key' → compare a a' = compareKey key key')
    (named : ∀ a ∈ items, (key? a).isSome = true)
    (ordered : (items.filterMap key?).Pairwise fun key key' => (compareKey key key').isLE = true)
    : sortBy compare items = items := by
  apply List.mergeSort_of_pairwise
  refine (List.pairwise_filterMap.mp ordered).imp_of_mem ?_
  intro a a' member member' key_le
  obtain ⟨key, found⟩ := Option.isSome_iff_exists.mp (named a member)
  obtain ⟨key', found'⟩ := Option.isSome_iff_exists.mp (named a' member')
  rw [keyed a member a' member' key key' found found']
  exact key_le key found key' found'

/-- Lists without repetitions that have the same items, and both in order, are the same if no two of
the items compare equal.
-/
theorem eq_of_pairwise_of_apart [Std.OrientedCmp compare] {left right : List α}
    (left_nodup : left.Nodup) (right_nodup : right.Nodup) (same : ∀ a, a ∈ left ↔ a ∈ right)
    (apart : ∀ a ∈ left, ∀ a' ∈ left, compare a a' = .eq → a = a')
    (left_ordered : left.Pairwise fun a a' => (compare a a').isLE = true)
    (right_ordered : right.Pairwise fun a a' => (compare a a').isLE = true)
    : left = right := by
  refine List.Perm.eq_of_pairwise ?_ left_ordered right_ordered
    ((List.perm_ext_iff_of_nodup left_nodup right_nodup).mpr same)
  intro a a' member member' le ge
  exact apart a member a' ((same a').mpr member') (Std.OrientedCmp.isLE_antisymm le ge)

theorem eq_of_pairwise [Std.TransCmp compare] [Std.LawfulEqCmp compare] {left right : List α}
    (left_nodup : left.Nodup) (right_nodup : right.Nodup) (same : ∀ a, a ∈ left ↔ a ∈ right)
    (left_ordered : left.Pairwise fun a a' => (compare a a').isLE = true)
    (right_ordered : right.Pairwise fun a a' => (compare a a').isLE = true)
    : left = right :=
  eq_of_pairwise_of_apart left_nodup right_nodup same
    (fun _ _ _ _ => Std.LawfulEqCmp.eq_of_compare) left_ordered right_ordered

end

-----------------------------------------------------------------------------------------
-- Comparisons
-----------------------------------------------------------------------------------------

/-- Comparing a part of the items orders them, up to those that have the same part. -/
theorem transCmp_part {α β : Type} (compare : β → β → Ordering) [Std.TransCmp compare]
    (part : α → β)
    : Std.TransCmp fun a a' => compare (part a) (part a') where
  eq_swap := Std.OrientedCmp.eq_swap
  isLE_trans := Std.TransCmp.isLE_trans

section

variable {α : Type} {compare : α → α → Ordering}

instance [Std.TransCmp compare] : Std.TransCmp (compareOption compare) where
  eq_swap {a b} := by
    cases a with
    | none => cases b <;> rfl
    | some a =>
        cases b with
        | none => rfl
        | some b => exact (Std.OrientedCmp.eq_swap : compare a b = (compare b a).swap)
  isLE_trans {a b c} le le' := by
    cases a with
    | none => cases c <;> rfl
    | some a =>
        cases b with
        | none => cases le
        | some b =>
            cases c with
            | none => cases le'
            | some c =>
                have trans : (compare a b).isLE → (compare b c).isLE → (compare a c).isLE :=
                  Std.TransCmp.isLE_trans
                exact trans le le'

instance [Std.TransCmp compare] [Std.LawfulEqCmp compare]
    : Std.LawfulEqCmp (compareOption compare) where
  eq_of_compare {a b} same := by
    cases a with
    | none =>
        cases b with
        | none => rfl
        | some b => cases same
    | some a =>
        cases b with
        | none => cases same
        | some b =>
            have here : compare a b = .eq := same
            exact congrArg some (Std.LawfulEqCmp.eq_of_compare here)

end

instance {kind : Kind} : Std.TransCmp (Name.compare : Name kind → Name kind → Ordering) :=
  inferInstanceAs (Std.TransCmp (compareOn Name.text))

instance {kind : Kind} : Std.LawfulEqCmp (Name.compare : Name kind → Name kind → Ordering) where
  eq_of_compare same := Name.ext (Std.LawfulEqCmp.eq_of_compare same)

instance : Std.TransCmp Descriptor.compare :=
  inferInstanceAs (Std.TransCmp (compareOn Descriptor.text))

instance : Std.LawfulEqCmp Descriptor.compare where
  eq_of_compare {descriptor descriptor'} same := by
    have text_eq : descriptor.text = descriptor'.text := Std.LawfulEqCmp.eq_of_compare same
    cases descriptor
    cases descriptor'
    cases text_eq
    rfl

/-- How fields of a class compare, told by their keys. -/
def FieldKey.compareIn (owner : ClassName) (key key' : FieldKey) : Ordering :=
  (Ord.compare (fullMemberName owner (some key.name))
      (fullMemberName owner (some key'.name))).then
    (compareOption Descriptor.compare key.descriptor key'.descriptor)

/-- How methods of a class compare, told by their keys. Different keys can compare equal. -/
def MethodKey.compareIn (owner : ClassName) (key key' : MethodKey) : Ordering :=
  Ord.compare (fullMemberName owner (some key.name) ++ key.descriptor.text)
    (fullMemberName owner (some key'.name) ++ key'.descriptor.text)

instance (owner : ClassName) : Std.TransCmp (FieldKey.compareIn owner) := by
  have by_descriptor := transCmp_part (compareOption Descriptor.compare) FieldKey.descriptor
  exact inferInstanceAs (Std.TransCmp (compareLex
    (compareOn fun key : FieldKey => fullMemberName owner (some key.name))
    fun key key' => compareOption Descriptor.compare key.descriptor key'.descriptor))

instance (owner : ClassName) : Std.TransCmp (MethodKey.compareIn owner) :=
  inferInstanceAs (Std.TransCmp (compareOn fun key : MethodKey =>
    fullMemberName owner (some key.name) ++ key.descriptor.text))

/-- Names of members are told apart behind the name of their class. -/
theorem eq_of_fullMemberName_eq {kind : Kind} {owner : ClassName} {name name' : Name kind}
    (same : fullMemberName owner (some name) = fullMemberName owner (some name'))
    : name = name' := by
  apply Name.ext
  simpa [fullMemberName] using same

instance (owner : ClassName) : Std.LawfulEqCmp (FieldKey.compareIn owner) where
  eq_of_compare {key key'} same := by
    obtain ⟨name_same, descriptor_same⟩ := Ordering.then_eq_eq.mp same
    have name_eq : key.name = key'.name :=
      eq_of_fullMemberName_eq (Std.LawfulEqCmp.eq_of_compare name_same)
    have descriptor_eq : key.descriptor = key'.descriptor :=
      Std.LawfulEqCmp.eq_of_compare descriptor_same
    cases key
    cases key'
    cases name_eq
    cases descriptor_eq
    rfl

namespace Arrangement

instance : Std.TransCmp byName.classes :=
  transCmp_part (compareOption Name.compare) fun cls : Class 2 => cls.names.source

instance : Std.TransCmp byName.fields := by
  have by_descriptor := transCmp_part (compareOption Descriptor.compare)
    fun field : Member (Field 2) => field.item.descriptor
  exact inferInstanceAs (Std.TransCmp (compareLex (compareOn Member.fieldName) fun field field' =>
    compareOption Descriptor.compare field.item.descriptor field'.item.descriptor))

instance : Std.TransCmp byName.methods :=
  inferInstanceAs (Std.TransCmp (compareOn fun method : Member (Method 2) =>
    method.methodName ++ method.item.descriptor.text))

theorem byName_classes_eq {cls cls' : Class 2} {owner owner' : ClassName}
    (found : cls.names.source = some owner) (found' : cls'.names.source = some owner')
    : byName.classes cls cls' = owner.compare owner' := by
  simp only [byName, found, found', compareOption]

theorem byName_fields_eq {owner : ClassName} {field field' : Field 2} {key key' : FieldKey}
    (found : field.key? = some key) (found' : field'.key? = some key')
    : byName.fields ⟨owner, field⟩ ⟨owner, field'⟩ = FieldKey.compareIn owner key key' := by
  obtain ⟨name, named, rfl⟩ := Option.map_eq_some_iff.mp found
  obtain ⟨name', named', rfl⟩ := Option.map_eq_some_iff.mp found'
  simp only [byName, Member.fieldName, named, named', FieldKey.compareIn]

theorem byName_methods_eq {owner : ClassName} {method method' : Method 2} {key key' : MethodKey}
    (found : method.key? = some key) (found' : method'.key? = some key')
    : byName.methods ⟨owner, method⟩ ⟨owner, method'⟩ = MethodKey.compareIn owner key key' := by
  obtain ⟨name, named, rfl⟩ := Option.map_eq_some_iff.mp found
  obtain ⟨name', named', rfl⟩ := Option.map_eq_some_iff.mp found'
  simp only [byName, Member.methodName, named, named', MethodKey.compareIn]

end Arrangement

-----------------------------------------------------------------------------------------
-- The usual order of what is written
-----------------------------------------------------------------------------------------

namespace Nested

variable {table : Table 2}

theorem pairwise_classOrder (outer : Option ClassName)
    : (classOrder table .byName outer).Pairwise fun owner owner' =>
        (owner.compare owner').isLE = true := by
  apply pairwise_filterMap_sortBy
  intro cls _ cls' _ owner owner' found found'
  exact Arrangement.byName_classes_eq found found'

theorem pairwise_fieldOrder (owner : ClassName)
    : (fieldOrder table .byName owner).Pairwise fun key key' =>
        (FieldKey.compareIn owner key key').isLE = true := by
  apply pairwise_filterMap_sortBy
  intro member listed member' listed' key key' found found'
  obtain ⟨field, _, rfl⟩ := List.mem_map.mp listed
  obtain ⟨field', _, rfl⟩ := List.mem_map.mp listed'
  exact Arrangement.byName_fields_eq found found'

theorem pairwise_methodOrder (owner : ClassName)
    : (methodOrder table .byName owner).Pairwise fun key key' =>
        (MethodKey.compareIn owner key key').isLE = true := by
  apply pairwise_filterMap_sortBy
  intro member listed member' listed' key key' found found'
  obtain ⟨method, _, rfl⟩ := List.mem_map.mp listed
  obtain ⟨method', _, rfl⟩ := List.mem_map.mp listed'
  exact Arrangement.byName_methods_eq found found'

theorem pairwise_parameterOrder (owner : ClassName) (key : MethodKey)
    : (parameterOrder table owner key).Pairwise fun index index' =>
        (compare index index').isLE = true := by
  have by_index := transCmp_part (compare : UInt64 → UInt64 → Ordering)
    (Parameter.index : Parameter 2 → UInt64)
  exact List.pairwise_map.mpr (pairwise_sortBy _)

end Nested

end NameTables
