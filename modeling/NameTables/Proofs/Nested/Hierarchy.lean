import Mathlib.Data.List.Basic
import NameTables.Nesting
import NameTables.Proofs.Table.Coherence

/-! Which classes carry mappings.
The classes around a class form a chain, so each class is found below exactly one of the classes
that another one holds. The search for a mapped class goes as deep as there are classes, and chains
are never longer.
-/

namespace NameTables

namespace Name

/-- A class and all classes around it. -/
def around (name : ClassName) : List ClassName := name :: name.enclosing

theorem mem_around_self (name : ClassName) : name ∈ name.around := List.mem_cons_self

theorem mem_around_of_mem_enclosing {name outer : ClassName} (inside : outer ∈ name.enclosing)
    : outer ∈ name.around :=
  List.mem_cons_of_mem name inside

theorem length_le_of_mem_around {name outer : ClassName} (member : outer ∈ name.around)
    : outer.text.toList.length ≤ name.text.toList.length := by
  rcases List.mem_cons.mp member with rfl | inside
  · exact Nat.le_refl _
  · exact Nat.le_of_lt (length_lt_of_mem_enclosing inside)

theorem not_mem_enclosing_self (name : ClassName) : name ∉ name.enclosing := fun inside =>
  Nat.lt_irrefl _ (length_lt_of_mem_enclosing inside)

/-- What is around an enclosing class encloses the class, by induction along the chain. -/
theorem mem_enclosing_of_mem_around {name middle outer : ClassName}
    (inside : middle ∈ name.enclosing) (member : outer ∈ middle.around)
    : outer ∈ name.enclosing := by
  fun_induction enclosing name with
  | case1 name next simple split shorter ih =>
      rcases List.mem_cons.mp inside with rfl | further
      · exact member
      · exact List.mem_cons_of_mem next (ih further)
  | case2 => simp at inside

theorem mem_around_trans {name middle outer : ClassName} (inside : middle ∈ name.around)
    (member : outer ∈ middle.around)
    : outer ∈ name.around := by
  rcases List.mem_cons.mp inside with rfl | further
  · exact member
  · exact mem_around_of_mem_enclosing (mem_enclosing_of_mem_around further member)

/-- Of two enclosing classes one is around the other, by induction along the chain. -/
theorem enclosing_linear {name x y : ClassName} (mem_x : x ∈ name.enclosing)
    (mem_y : y ∈ name.enclosing)
    : x ∈ y.around ∨ y ∈ x.around := by
  fun_induction enclosing name with
  | case1 name next simple split shorter ih =>
      rcases List.mem_cons.mp mem_x with rfl | further_x
      · exact Or.inr mem_y
      · rcases List.mem_cons.mp mem_y with rfl | further_y
        · exact Or.inl mem_x
        · exact ih further_x further_y
  | case2 => simp at mem_x

theorem around_linear {name x y : ClassName} (mem_x : x ∈ name.around) (mem_y : y ∈ name.around)
    : x ∈ y.around ∨ y ∈ x.around := by
  rcases List.mem_cons.mp mem_x with rfl | inside_x
  · exact Or.inr mem_y
  · rcases List.mem_cons.mp mem_y with rfl | inside_y
    · exact Or.inl mem_x
    · exact enclosing_linear inside_x inside_y

end Name

namespace Table

variable {n : Nat} {table : Table n}

theorem contains_iff {name : ClassName}
    : table.classes.contains name = true ↔ name ∈ table.classes.keys :=
  table.classes.get?_isSome_iff name

theorem mem_keys_iff {name : ClassName}
    : name ∈ table.classes.keys ↔ ∃ cls, table.class? name = some cls := by
  rw [← table.classes.get?_isSome_iff name, Option.isSome_iff_exists]
  rfl

theorem mem_enclosing_of_outer? {name outer : ClassName} (found : table.outer? name = some outer)
    : outer ∈ name.enclosing :=
  List.mem_of_find?_eq_some found

theorem mem_keys_of_outer? {name outer : ClassName} (found : table.outer? name = some outer)
    : outer ∈ table.classes.keys :=
  contains_iff.mp (List.find?_some found)

/-- The class is nested in `outer`, directly or not. All classes are in the table itself. -/
def Inside (table : Table n) (outer : Option ClassName) (name : ClassName) : Prop :=
  ∀ around, outer = some around → around ∈ table.classes.keys ∧ around ∈ name.enclosing

theorem inside_none (name : ClassName) : table.Inside none name := fun _ absurd_some =>
  nomatch absurd_some

theorem inside_of_outer? {name : ClassName} : table.Inside (table.outer? name) name :=
  fun _ found => ⟨mem_keys_of_outer? found, mem_enclosing_of_outer? found⟩

theorem outer?_of_split? {name next : ClassName} {simple : String}
    (split : name.split? = some (next, simple))
    : table.outer? name = if next ∈ table.classes.keys then some next else table.outer? next := by
  rw [outer?, Name.enclosing_of_split? split, List.find?_cons]
  by_cases stored : next ∈ table.classes.keys
  · rw [contains_iff.mpr stored, if_pos stored]
  · rw [Bool.eq_false_iff.mpr (mt contains_iff.mp stored), if_neg stored]
    rfl

/-- The chain of enclosing classes leaves `outer` through a class that is directly in it. By
induction along the chain, where classes that the table lacks are passed over.
-/
theorem exists_outer?_eq {outer : Option ClassName} {name : ClassName}
    (inside : table.Inside outer name)
    : table.outer? name = outer
      ∨ ∃ top ∈ name.enclosing, top ∈ table.classes.keys ∧ table.outer? top = outer := by
  induction name using Name.enclosing.induct with
  | case1 name next simple split shorter ih =>
      have chain := Name.enclosing_of_split? split
      have through (below : table.Inside outer next) (stored : next ∈ table.classes.keys)
          : ∃ top ∈ name.enclosing, top ∈ table.classes.keys ∧ table.outer? top = outer := by
        rcases ih below with here | ⟨top, member, found⟩
        · exact ⟨next, chain ▸ List.mem_cons_self, stored, here⟩
        · exact ⟨top, chain ▸ List.mem_cons_of_mem next member, found⟩
      rw [outer?_of_split? split]
      -- The next class is around `name` in the table only if the table has it.
      by_cases stored : next ∈ table.classes.keys
      · rw [if_pos stored]
        by_cases same : outer = some next
        · exact Or.inl same.symm
        · refine Or.inr (through (fun around found => ?_) stored)
          obtain ⟨listed, member⟩ := inside around found
          rcases List.mem_cons.mp (chain ▸ member) with rfl | further
          · exact absurd found same
          · exact ⟨listed, further⟩
      · rw [if_neg stored]
        have below : table.Inside outer next := by
          intro around found
          obtain ⟨listed, member⟩ := inside around found
          rcases List.mem_cons.mp (chain ▸ member) with rfl | further
          · exact absurd listed stored
          · exact ⟨listed, further⟩
        rcases ih below with here | ⟨top, member, found⟩
        · exact Or.inl here
        · exact Or.inr ⟨top, chain ▸ List.mem_cons_of_mem next member, found⟩
  | case2 name split =>
      have chain := Name.enclosing_of_split?_eq_none split
      left
      cases outer with
      | none => rw [outer?, chain, List.find?_nil]
      | some around =>
          have member := (inside around rfl).2
          simp [chain] at member

/-- Every class in `outer` is around itself or around another one directly in `outer`. -/
theorem exists_top {outer : Option ClassName} {name : ClassName}
    (stored : name ∈ table.classes.keys) (inside : table.Inside outer name)
    : ∃ top ∈ name.around, top ∈ table.classes.keys ∧ table.outer? top = outer := by
  rcases exists_outer?_eq inside with here | ⟨top, member, found⟩
  · exact ⟨name, name.mem_around_self, stored, here⟩
  · exact ⟨top, Name.mem_around_of_mem_enclosing member, found⟩

/-- The other enclosing classes are around the innermost one, by induction along the chain. -/
theorem exists_outer?_of_mem {name around : ClassName} (member : around ∈ name.enclosing)
    (stored : around ∈ table.classes.keys)
    : ∃ outer, table.outer? name = some outer ∧ around ∈ outer.around := by
  induction name using Name.enclosing.induct with
  | case1 name next simple split shorter ih =>
      have chain := Name.enclosing_of_split? split
      rw [outer?_of_split? split]
      by_cases next_stored : next ∈ table.classes.keys
      · rw [if_pos next_stored]
        rw [chain] at member
        exact ⟨next, rfl, member⟩
      · rw [if_neg next_stored]
        rcases List.mem_cons.mp (chain ▸ member) with rfl | further
        · exact absurd stored next_stored
        · exact ih further
  | case2 name split =>
      rw [Name.enclosing_of_split?_eq_none split] at member
      simp at member

/-- A class and one around it are not directly in the same class. -/
theorem outer?_ne_of_mem_enclosing {name around : ClassName} (member : around ∈ name.enclosing)
    (stored : around ∈ table.classes.keys)
    : table.outer? name ≠ table.outer? around := by
  intro same
  obtain ⟨outer, found, between⟩ := exists_outer?_of_mem member stored
  have further := mem_enclosing_of_outer? (same ▸ found)
  have shorter := Name.length_lt_of_mem_enclosing further
  have longer := Name.length_le_of_mem_around between
  omega

/-- Of the classes around one class, one is directly in `outer` at most. -/
theorem eq_of_outer?_eq {name x y : ClassName} (mem_x : x ∈ name.around) (mem_y : y ∈ name.around)
    (stored_x : x ∈ table.classes.keys) (stored_y : y ∈ table.classes.keys)
    (same : table.outer? x = table.outer? y)
    : x = y := by
  rcases Name.around_linear mem_x mem_y with x_around | y_around
  · rcases List.mem_cons.mp x_around with rfl | inside
    · rfl
    · exact absurd same.symm (outer?_ne_of_mem_enclosing inside stored_x)
  · rcases List.mem_cons.mp y_around with rfl | inside
    · rfl
    · exact absurd same (outer?_ne_of_mem_enclosing inside stored_y)

/-- The classes nested in a class, which bound how deep the nesting below it goes. -/
def nestedIn (table : Table n) (name : ClassName) : List ClassName :=
  table.classes.keys.filter fun inner => name ∈ inner.enclosing

theorem length_nestedIn_lt_of_outer? {name inner : ClassName} (stored : inner ∈ table.classes.keys)
    (found : table.outer? inner = some name)
    : (table.nestedIn inner).length < (table.nestedIn name).length := by
  have inside := mem_enclosing_of_outer? found
  have nodup : (inner :: table.nestedIn inner).Nodup := by
    refine List.nodup_cons.mpr ⟨?_, table.classes.keys_nodup.filter _⟩
    intro member
    have itself : inner ∈ inner.enclosing := by simpa using (List.mem_filter.mp member).2
    exact inner.not_mem_enclosing_self itself
  have subset : inner :: table.nestedIn inner ⊆ table.nestedIn name := by
    intro other member
    rcases List.mem_cons.mp member with rfl | further
    · exact List.mem_filter.mpr ⟨stored, by simpa using inside⟩
    · obtain ⟨listed, below⟩ := List.mem_filter.mp further
      have below : inner ∈ other.enclosing := by simpa using below
      refine List.mem_filter.mpr ⟨listed, ?_⟩
      simpa using Name.mem_enclosing_of_mem_around below (Name.mem_around_of_mem_enclosing inside)
  exact nodup.length_le_of_subset subset

theorem length_nestedIn_lt_size {name : ClassName} (stored : name ∈ table.classes.keys)
    : (table.nestedIn name).length < table.classes.keys.length := by
  have nodup : (name :: table.nestedIn name).Nodup := by
    refine List.nodup_cons.mpr ⟨?_, table.classes.keys_nodup.filter _⟩
    intro member
    have itself : name ∈ name.enclosing := by simpa using (List.mem_filter.mp member).2
    exact name.not_mem_enclosing_self itself
  have subset : name :: table.nestedIn name ⊆ table.classes.keys :=
    List.cons_subset.mpr ⟨stored, List.filter_subset_self _⟩
  exact nodup.length_le_of_subset subset

end Table

namespace Table

variable {table : Table 2}

/-- The class is mapped, or a class nested in it. -/
def carries (table : Table 2) (name : ClassName) : Bool :=
  table.classes.entries.any fun (inner, cls) => cls.isMapped && decide (name ∈ inner.around)

theorem carries_iff {name : ClassName}
    : table.carries name = true
      ↔ ∃ inner cls, table.class? inner = some cls ∧ cls.isMapped = true ∧ name ∈ inner.around := by
  simp only [carries, List.any_eq_true, Bool.and_eq_true, decide_eq_true_eq, Prod.exists, class?,
    OrderedMap.get?_eq_some_iff]

/-- What carries mappings is in classes that do. -/
theorem carries_of_mem_around {name around : ClassName} (carried : table.carries name = true)
    (member : around ∈ name.around)
    : table.carries around = true := by
  obtain ⟨inner, cls, stored, mapped, inside⟩ := carries_iff.mp carried
  exact carries_iff.mpr ⟨inner, cls, stored, mapped, Name.mem_around_trans inside member⟩

/-- A class carries mappings by itself or through a class directly in it. -/
theorem carries_iff_of_class? {name : ClassName} {cls : Class 2}
    (stored : table.class? name = some cls)
    : table.carries name = true
      ↔ cls.isMapped = true
        ∨ ∃ inner ∈ table.classes.keys,
            table.outer? inner = some name ∧ table.carries inner = true := by
  constructor
  · intro carried
    obtain ⟨deep, deep_cls, deep_stored, mapped, inside⟩ := carries_iff.mp carried
    rcases List.mem_cons.mp inside with rfl | further
    · obtain rfl := Option.some.inj (stored.symm.trans deep_stored)
      exact Or.inl mapped
    · right
      have below : table.Inside (some name) deep := by
        intro around found
        obtain rfl := Option.some.inj found
        exact ⟨mem_keys_iff.mpr ⟨cls, stored⟩, further⟩
      obtain ⟨top, member, listed, found⟩ := exists_top (mem_keys_iff.mpr ⟨_, deep_stored⟩) below
      exact ⟨top, listed, found, carries_iff.mpr ⟨deep, deep_cls, deep_stored, mapped, member⟩⟩
  · intro either
    rcases either with mapped | ⟨inner, _, found, carried⟩
    · exact carries_iff.mpr ⟨name, cls, stored, mapped, name.mem_around_self⟩
    · exact carries_of_mem_around carried
        (Name.mem_around_of_mem_enclosing (mem_enclosing_of_outer? found))

theorem fullTarget_of_target? {name target : ClassName} (named : table.target? name = some target)
    : table.fullTarget name = target := by
  rw [fullTarget, named]

theorem fullTarget_of_outer? {name outer : ClassName} (unnamed : table.target? name = none)
    (found : table.outer? name = some outer)
    : table.fullTarget name
      = (table.fullTarget outer).nested
          (String.ofList (name.text.toList.drop (outer.text.toList.length + 1))) := by
  rw [fullTarget.eq_def table name, unnamed]
  split
  · next named => cases named
  · split
    · next around around_found =>
      obtain rfl := Option.some.inj (found.symm.trans around_found)
      rfl
    · next absent => simp [found] at absent

theorem fullTarget_of_outer?_eq_none {name : ClassName} (unnamed : table.target? name = none)
    (absent : table.outer? name = none)
    : table.fullTarget name = name := by
  rw [fullTarget, unnamed]
  split
  · next named => cases named
  · split
    · next around found => simp [absent] at found
    · rfl

end Table

namespace Nesting

variable {table : Table 2}

theorem mem_inside_iff {outer : Option ClassName} {cls : Class 2}
    : cls ∈ (ofTable table).inside outer
      ↔ ∃ name, table.class? name = some cls ∧ table.outer? name = outer := by
  simp only [inside, ofTable, List.mem_filterMap, List.mem_map, Table.class?,
    OrderedMap.get?_eq_some_iff]
  constructor
  · intro given
    rcases given with ⟨_, ⟨⟨name, other⟩, listed, rfl⟩, kept⟩
    dsimp only at kept
    split at kept
    · next found =>
      obtain rfl := Option.some.inj kept
      exact ⟨name, listed, found⟩
    · simp at kept
  · intro given
    rcases given with ⟨name, listed, rfl⟩
    exact ⟨_, ⟨(name, cls), listed, rfl⟩, if_pos rfl⟩

theorem insideClass_eq (coherent : table.Coherent) {name : ClassName} {cls : Class 2}
    (stored : table.class? name = some cls)
    : (ofTable table).insideClass cls = (ofTable table).inside (some name) := by
  rw [insideClass, Names.source_eq_first?, coherent.cls stored]

/-- A search that goes deep enough finds what a class carries, by induction on its depth. -/
theorem isMappedWithin_iff (coherent : table.Coherent) {depth : Nat} {name : ClassName}
    {cls : Class 2} (stored : table.class? name = some cls)
    (enough : (table.nestedIn name).length ≤ depth)
    : (ofTable table).isMappedWithin depth cls = true ↔ table.carries name = true := by
  rw [Table.carries_iff_of_class? stored]
  induction depth generalizing name cls with
  | zero =>
      rw [isMappedWithin]
      refine ⟨Or.inl, ?_⟩
      intro either
      rcases either with mapped | ⟨inner, listed, found, _⟩
      · exact mapped
      · have := Table.length_nestedIn_lt_of_outer? listed found
        omega
  | succ depth ih =>
      rw [isMappedWithin, Bool.or_eq_true, insideClass_eq coherent stored, List.any_eq_true]
      refine or_congr_right ?_
      constructor
      · intro given
        rcases given with ⟨inner_cls, member, mapped⟩
        obtain ⟨inner, inner_stored, found⟩ := mem_inside_iff.mp member
        have listed := Table.mem_keys_iff.mpr ⟨_, inner_stored⟩
        have fewer := Table.length_nestedIn_lt_of_outer? listed found
        refine ⟨inner, listed, found, ?_⟩
        rw [Table.carries_iff_of_class? inner_stored]
        exact (ih inner_stored (by omega)).mp mapped
      · intro given
        rcases given with ⟨inner, listed, found, carried⟩
        obtain ⟨inner_cls, inner_stored⟩ := Table.mem_keys_iff.mp listed
        have fewer := Table.length_nestedIn_lt_of_outer? listed found
        rw [Table.carries_iff_of_class? inner_stored] at carried
        exact ⟨inner_cls, mem_inside_iff.mpr ⟨inner, inner_stored, found⟩,
          (ih inner_stored (by omega)).mpr carried⟩

/-- The writer keeps exactly the classes that carry mappings. -/
theorem isMapped_iff (coherent : table.Coherent) {name : ClassName} {cls : Class 2}
    (stored : table.class? name = some cls)
    : (ofTable table).isMapped cls = true ↔ table.carries name = true := by
  have fewer := Table.length_nestedIn_lt_size (Table.mem_keys_iff.mpr ⟨cls, stored⟩)
  have size : (ofTable table).classes.length = table.classes.keys.length := by
    simp [ofTable, OrderedMap.keys]
  exact isMappedWithin_iff coherent stored (by rw [size]; omega)

end Nesting

end NameTables
