import Mathlib.Data.List.Nodup
import NameTables.Proofs.Nested.Hierarchy
import NameTables.Proofs.OrderedMap
import NameTables.Proofs.Table.Declarations

/-! Which classes enclose a class.
Joining the name of a class from two parts and cutting it are inverse to each other. Cutting again
and again finds every way to read a name as that of a class in another one, the longest outer name
first, so a table nests each class in the longest of its keys that the name goes on behind.
-/

namespace NameTables

-----------------------------------------------------------------------------------------
-- Names joined from two parts
-----------------------------------------------------------------------------------------

namespace Name

/-- The name of a class can go on behind this one, which is not empty and names no package. -/
def CanEnclose (outer : ClassName) : Prop :=
  outer.text ≠ "" ∧ outer.text.toList.getLast? ≠ some '/'

instance (outer : ClassName) : Decidable outer.CanEnclose := inferInstanceAs (Decidable (_ ∧ _))

theorem toList_nested (outer : ClassName) (simple : String)
    : (outer.nested simple).text.toList = outer.text.toList ++ '$' :: simple.toList := by
  simp [nested]

/-- A name is cut into the parts that it was joined from, of which the second one is a simple name.
-/
theorem split?_eq_some_iff {name outer : ClassName} {simple : String}
    : name.split? = some (outer, simple)
      ↔ name = outer.nested simple
        ∧ outer.CanEnclose
        ∧ simple ≠ "" ∧ '$' ∉ simple.toList ∧ '/' ∉ simple.toList := by
  have cut_iff : name.split? = some (outer, simple)
      ↔ splitChars? name.text.toList = some (outer.text.toList, simple.toList) := by
    rw [split?, Option.map_eq_some_iff]
    constructor
    · intro given
      obtain ⟨⟨before, after⟩, cut, same⟩ := given
      obtain ⟨rfl, rfl⟩ := Prod.mk.inj same
      rw [cut, String.toList_ofList, String.toList_ofList]
    · intro cut
      exact ⟨_, cut, by simp⟩
  rw [cut_iff, splitChars?_eq_some_iff, Name.ext_iff, ← String.toList_inj, toList_nested,
    CanEnclose, and_assoc]
  simp only [ne_eq, String.toList_eq_nil_iff]

/-- Cutting a name and joining the parts gives the name back, and joining two parts and cutting the
name gives them back exactly if the first one can enclose a class and the second one is simple.
-/
theorem splitting_inverts_nesting
    : (∀ {name outer : ClassName} {simple : String},
        name.split? = some (outer, simple) → outer.nested simple = name)
      ∧ ∀ (outer : ClassName) (simple : String),
          (outer.nested simple).split? = some (outer, simple)
            ↔ (outer.text ≠ "" ∧ outer.text.toList.getLast? ≠ some '/')
              ∧ simple ≠ "" ∧ '$' ∉ simple.toList ∧ '/' ∉ simple.toList := by
  constructor
  · intro name outer simple cut
    exact (split?_eq_some_iff.mp cut).1.symm
  · intro outer simple
    rw [split?_eq_some_iff, and_iff_right rfl]
    rfl

theorem splitting_inverts_nesting_dollarInOuter
    : Name.split? ⟨"org/A$$B"⟩ = some (⟨"org/A$"⟩, "B")
      ∧ Name.nested ⟨"org/A$"⟩ "B" = ⟨"org/A$$B"⟩
      ∧ Name.split? (Name.nested ⟨"org/A$"⟩ "B") = some (⟨"org/A$"⟩, "B")
      ∧ Name.split? (Name.nested ⟨"org/A"⟩ "$B") ≠ some (⟨"org/A"⟩, "$B") := by
  obtain ⟨joined, cut_iff⟩ := splitting_inverts_nesting
  have cut : Name.split? ⟨"org/A$$B"⟩ = some (⟨"org/A$"⟩, "B") := by decide +kernel
  refine ⟨cut, joined cut, (cut_iff ⟨"org/A$"⟩ "B").mpr (by decide), fun given => ?_⟩
  exact absurd ((cut_iff ⟨"org/A"⟩ "$B").mp given) (by decide)

-----------------------------------------------------------------------------------------
-- All enclosing names
-----------------------------------------------------------------------------------------

/-- (outer.Encloses name) says that `name` goes on behind `outer` with simple names only, each after
a `$`.
-/
def Encloses (outer name : ClassName) : Prop :=
  outer.CanEnclose
  ∧ ∃ rest : String,
      name.text = outer.text ++ "$" ++ rest
      ∧ '/' ∉ rest.toList
      ∧ [] ∉ rest.toList.splitOn '$'

/-- The name that a name is cut behind encloses it. -/
theorem encloses_of_split? {name next : ClassName} {simple : String}
    (split : name.split? = some (next, simple))
    : next.Encloses name := by
  obtain ⟨rfl, can, filled, no_dollar, no_slash⟩ := split?_eq_some_iff.mp split
  refine ⟨can, simple, rfl, no_slash, ?_⟩
  rw [List.splitOn_eq_singleton no_dollar, List.mem_singleton]
  exact fun empty => filled (String.toList_eq_nil_iff.mp empty.symm)

/-- The simple name that is cut off is the last one behind an outer name. -/
theorem Encloses.of_split? {name next outer : ClassName} {simple : String}
    (inside : outer.Encloses next) (split : name.split? = some (next, simple))
    : outer.Encloses name := by
  obtain ⟨rfl, _, filled, no_dollar, no_slash⟩ := split?_eq_some_iff.mp split
  obtain ⟨can, rest, next_eq, rest_no_slash, rest_filled⟩ := inside
  refine ⟨can, rest ++ "$" ++ simple, ?_, ?_, ?_⟩
  · rw [nested, next_eq]
    simp only [String.append_assoc]
  · simp [rest_no_slash, no_slash]
  · have parts : (rest ++ "$" ++ simple).toList = rest.toList ++ '$' :: simple.toList := by simp
    rw [parts, List.splitOn_append_cons_self, List.splitOn_eq_singleton no_dollar, List.mem_append,
      List.mem_singleton, not_or]
    exact ⟨rest_filled, fun empty => filled (String.toList_eq_nil_iff.mp empty.symm)⟩

/-- A name that an outer one encloses is cut behind that one or further on. -/
theorem Encloses.exists_split? {name outer : ClassName} (inside : outer.Encloses name)
    : ∃ next simple, name.split? = some (next, simple) ∧ (outer = next ∨ outer.Encloses next) := by
  obtain ⟨can, rest, text_eq, no_slash, filled⟩ := inside
  cases cut : Text.splitAtLast '$' rest.toList with
  | none =>
      have no_dollar := Text.splitAtLast_eq_none_iff.mp cut
      have not_empty : rest ≠ "" := by
        rintro rfl
        simp at filled
      exact ⟨outer, rest,
        split?_eq_some_iff.mpr ⟨Name.ext text_eq, can, not_empty, no_dollar, no_slash⟩, Or.inl rfl⟩
  | some parts =>
      obtain ⟨before, simple⟩ := parts
      obtain ⟨rest_eq, no_dollar⟩ := Text.splitAtLast_eq_some_iff.mp cut
      rw [rest_eq, List.splitOn_append_cons_self, List.splitOn_eq_singleton no_dollar,
        List.mem_append, List.mem_singleton, not_or] at filled
      rw [rest_eq, List.mem_append, List.mem_cons, not_or, not_or] at no_slash
      have before_filled : before ≠ [] := by
        rintro rfl
        simp at filled
      have next_can : (outer.nested (String.ofList before)).CanEnclose := by
        constructor
        · simp [nested]
        · rw [toList_nested, String.toList_ofList, List.append_cons,
            List.getLast?_append_of_ne_nil _ before_filled]
          exact fun last => no_slash.1 (List.mem_of_getLast? last)
      refine ⟨outer.nested (String.ofList before), String.ofList simple,
        split?_eq_some_iff.mpr ⟨?_, next_can, ?_, ?_, ?_⟩,
        Or.inr ⟨can, String.ofList before, rfl, ?_, ?_⟩⟩
      · rw [Name.ext_iff, ← String.toList_inj, text_eq, toList_nested, toList_nested]
        simp [rest_eq]
      · exact fun empty => filled.2 (by simpa using empty.symm)
      · simpa using no_dollar
      · simpa using no_slash.2.2
      · simpa using no_slash.1
      · simpa using filled.1

/-- Cutting again and again finds all names that enclose a name, by induction on the cuts. -/
theorem mem_enclosing_iff {name outer : ClassName}
    : outer ∈ name.enclosing ↔ outer.Encloses name := by
  fun_induction enclosing name with
  | case1 name next simple split shorter ih =>
      rw [List.mem_cons, ih]
      constructor
      · intro given
        rcases given with rfl | further
        · exact encloses_of_split? split
        · exact further.of_split? split
      · intro inside
        obtain ⟨next', simple', split', given⟩ := inside.exists_split?
        obtain ⟨rfl, rfl⟩ := Prod.mk.inj (Option.some.inj (split.symm.trans split'))
        exact given
  | case2 name uncut =>
      refine iff_of_false List.not_mem_nil fun inside => ?_
      obtain ⟨next, simple, split, _⟩ := inside.exists_split?
      cases uncut.symm.trans split

/-- Each cut takes one `$` away. -/
theorem count_of_split? {name next : ClassName} {simple : String}
    (split : name.split? = some (next, simple))
    : name.text.toList.count '$' = next.text.toList.count '$' + 1 := by
  obtain ⟨rfl, _, _, no_dollar, _⟩ := split?_eq_some_iff.mp split
  rw [toList_nested, List.count_append, List.count_cons_self, List.count_eq_zero.mpr no_dollar]

end Name

-----------------------------------------------------------------------------------------
-- The class that a class is nested in
-----------------------------------------------------------------------------------------

namespace Table

variable {n : Nat} {table : Table n}

/-- The class that `name` is nested in, as a search cut by cut finds it. It gives up when `cuts` of
them were not enough.
-/
def searchOuter (table : Table n) : Nat → ClassName → Option (Option ClassName)
  | 0, _ => none
  | cuts + 1, name =>
      match name.split? with
      | some (next, _) =>
          if table.classes.contains next then some (some next) else table.searchOuter cuts next
      | none => some none

/-- One cut more than there are `$` is enough, by induction on the cuts. -/
theorem searchOuter_eq {cuts : Nat} {name : ClassName} (enough : name.text.toList.count '$' < cuts)
    : table.searchOuter cuts name = some (table.outer? name) := by
  induction cuts generalizing name with
  | zero => exact absurd enough (Nat.not_lt_zero _)
  | succ cuts ih =>
      rw [searchOuter]
      split
      · next next simple split =>
        rw [outer?_of_split? split]
        have fewer := Name.count_of_split? split
        by_cases stored : next ∈ table.classes.keys
        · rw [if_pos stored, if_pos (contains_iff.mpr stored)]
        · rw [if_neg stored, if_neg (mt contains_iff.mp stored), ih (by omega)]
      · next uncut =>
        rw [outer?, Name.enclosing_of_split?_eq_none uncut, List.find?_nil]

/-- A class is nested in the longest key that encloses it. -/
theorem outer?_eq_some_iff {name outer : ClassName}
    : table.outer? name = some outer
      ↔ outer ∈ table.classes.keys
        ∧ outer.Encloses name
        ∧ ∀ other ∈ table.classes.keys,
            other.Encloses name → other.text.length ≤ outer.text.length := by
  have longest {outer other : ClassName} (found : table.outer? name = some outer)
      (stored : other ∈ table.classes.keys) (encloses : other.Encloses name)
      : other ∈ outer.around := by
    obtain ⟨innermost, innermost_found, around⟩ :=
      exists_outer?_of_mem (Name.mem_enclosing_iff.mpr encloses) stored
    obtain rfl := Option.some.inj (found.symm.trans innermost_found)
    exact around
  constructor
  · intro found
    exact ⟨mem_keys_of_outer? found, Name.mem_enclosing_iff.mp (mem_enclosing_of_outer? found),
      fun other stored encloses => Name.length_le_of_mem_around (longest found stored encloses)⟩
  · intro given
    obtain ⟨stored, encloses, bound⟩ := given
    obtain ⟨innermost, found, around⟩ :=
      exists_outer?_of_mem (Name.mem_enclosing_iff.mpr encloses) stored
    -- A longer name than `outer` would be another key that encloses the class.
    rcases List.mem_cons.mp around with rfl | inside
    · exact found
    · have shorter := Name.length_lt_of_mem_enclosing inside
      have longer := bound innermost (mem_keys_of_outer? found)
        (Name.mem_enclosing_iff.mp (mem_enclosing_of_outer? found))
      rw [← String.length_toList, ← String.length_toList] at longer
      omega

theorem outer?_eq_none_iff {name : ClassName}
    : table.outer? name = none ↔ ∀ key ∈ table.classes.keys, ¬key.Encloses name := by
  rw [outer?, List.find?_eq_none]
  constructor
  · intro absent key stored encloses
    exact absent key (Name.mem_enclosing_iff.mpr encloses) (contains_iff.mpr stored)
  · intro absent key inside stored
    exact absent key (contains_iff.mp stored) (Name.mem_enclosing_iff.mp inside)

end Table

-----------------------------------------------------------------------------------------
-- Where a class is listed
-----------------------------------------------------------------------------------------

/-- How often a class is listed directly in `outer`, or on top. -/
def Nesting.listings (nesting : Nesting) (cls : Class 2) (outer : Option ClassName) : Nat :=
  (nesting.inside outer).count cls

/-- A class is listed on top and in no class, or else once in one other class of the table. -/
def Table.ListsOnce (table : Table 2) (name : ClassName) (cls : Class 2) : Prop :=
  ((Nesting.ofTable table).listings cls none = 1
    ∧ ∀ outer, (Nesting.ofTable table).listings cls (some outer) = 0)
  ∨ ((Nesting.ofTable table).listings cls none = 0
    ∧ ∃ outer ∈ table.classes.keys,
        outer ≠ name
        ∧ (Nesting.ofTable table).listings cls (some outer) = 1
        ∧ ∀ other, other ≠ outer → (Nesting.ofTable table).listings cls (some other) = 0)

theorem Nesting.inside_sublist_values (table : Table 2) (outer : Option ClassName)
    : ((ofTable table).inside outer).Sublist table.classes.values := by
  have inside_eq : (ofTable table).inside outer
      = (table.classes.entries.filter fun entry => table.outer? entry.1 = outer).map Prod.snd := by
    rw [inside, ofTable, List.filterMap_map, ← List.filterMap_eq_map, ← List.filterMap_eq_filter,
      List.filterMap_filterMap]
    apply List.filterMap_congr
    intro entry _
    by_cases found : table.outer? entry.1 = outer
    · simp [found]
    · simp [found, Option.guard]
  rw [inside_eq]
  exact List.filter_sublist.map Prod.snd

namespace Table

variable {table : Table 2}

/-- Each class of a coherent table is listed in one place, once, since its first name tells it apart
from the others.
-/
theorem Coherent.listings_eq (coherent : table.Coherent) {name : ClassName} {cls : Class 2}
    (stored : table.class? name = some cls) (outer : Option ClassName)
    : (Nesting.ofTable table).listings cls outer = if outer = table.outer? name then 1 else 0 := by
  have nodup : ((Nesting.ofTable table).inside outer).Nodup := by
    have told_apart := OrderedMap.nodup_map_values some (fun _ _ => Option.some.inj)
      fun _ _ stored => coherent.cls stored
    exact told_apart.of_map.sublist (Nesting.inside_sublist_values table outer)
  rw [Nesting.listings]
  split
  · next same =>
    exact List.count_eq_one_of_mem nodup (Nesting.mem_inside_iff.mpr ⟨name, stored, same.symm⟩)
  · next other =>
    refine List.count_eq_zero.mpr fun listed => other ?_
    obtain ⟨name', stored', found⟩ := Nesting.mem_inside_iff.mp listed
    obtain rfl := Option.some.inj ((coherent.cls stored).symm.trans (coherent.cls stored'))
    exact found.symm

theorem Coherent.listsOnce (coherent : table.Coherent) {name : ClassName} {cls : Class 2}
    (stored : table.class? name = some cls)
    : table.ListsOnce name cls := by
  unfold ListsOnce
  simp only [coherent.listings_eq stored]
  cases found : table.outer? name with
  | none => exact Or.inl ⟨if_pos rfl, fun outer => if_neg nofun⟩
  | some outer =>
      refine Or.inr ⟨if_neg nofun, outer, mem_keys_of_outer? found, ?_, if_pos rfl,
        fun other apart => if_neg fun same => apart (Option.some.inj same)⟩
      rintro rfl
      exact Nat.lt_irrefl _ (length_lt_of_outer? found)

/-- The search for the class that a class is nested in ends after one cut more than there are `$` in
the name. It finds the longest key that encloses the name, and none only if no key does. So what it
finds is shorter than the name, and each class of a coherent table is listed once, either on top or
in one other class.
-/
theorem nests_in_longest (table : Table 2)
    : (∀ name, table.searchOuter (name.text.toList.count '$' + 1) name = some (table.outer? name))
      ∧ (∀ name outer, table.outer? name = some outer
          ↔ outer ∈ table.classes.keys
            ∧ outer.Encloses name
            ∧ ∀ other ∈ table.classes.keys,
                other.Encloses name → other.text.length ≤ outer.text.length)
      ∧ (∀ name, table.outer? name = none ↔ ∀ key ∈ table.classes.keys, ¬key.Encloses name)
      ∧ (∀ name outer, table.outer? name = some outer →
          outer ∈ table.classes.keys ∧ outer.text.length < name.text.length)
      ∧ (table.Coherent → ∀ name cls, table.class? name = some cls → table.ListsOnce name cls) := by
  refine ⟨fun name => searchOuter_eq (Nat.lt_succ_self _), fun name outer => outer?_eq_some_iff,
    fun name => outer?_eq_none_iff, fun name outer found => ⟨mem_keys_of_outer? found, ?_⟩,
    fun coherent name cls stored => coherent.listsOnce stored⟩
  rw [← String.length_toList, ← String.length_toList]
  exact length_lt_of_outer? found

/-- The empty part of a name hides all classes around it. -/
def hiddenOuter : Table 2 :=
  (Table.empty ⟨#v["official", "hashed"]⟩).declareAll
    [⟨.cls ⟨"a$b$c"⟩, .pair (some ⟨"a$b$c"⟩) none⟩,
      ⟨.cls ⟨"a"⟩, .pair (some ⟨"a"⟩) none⟩,
      ⟨.cls ⟨"a$b$c$$d"⟩, .pair (some ⟨"a$b$c$$d"⟩) none⟩]

theorem nests_in_longest_hiddenOuter
    : hiddenOuter.Coherent
      ∧ hiddenOuter.searchOuter 3 ⟨"a$b$c"⟩ = some (some ⟨"a"⟩)
      ∧ hiddenOuter.outer? ⟨"a$b$c"⟩ = some ⟨"a"⟩
      ∧ "a".length < "a$b$c".length
      ∧ (∀ key ∈ hiddenOuter.classes.keys, ¬key.Encloses ⟨"a$b$c$$d"⟩)
      ∧ hiddenOuter.ListsOnce ⟨"a$b$c"⟩ ⟨.pair (some ⟨"a$b$c"⟩) none, .empty, .empty⟩ := by
  have coherent : hiddenOuter.Coherent := by
    apply Table.declareAll_coherent _ (by decide)
    simp [Path.Fits, Names.first?, Names.pair]
  have around : hiddenOuter.outer? ⟨"a$b$c"⟩ = some ⟨"a"⟩ := by decide +kernel
  have alone : hiddenOuter.outer? ⟨"a$b$c$$d"⟩ = none := by decide +kernel
  obtain ⟨search, _, hidden, shorter, listed⟩ := nests_in_longest hiddenOuter
  exact ⟨coherent, (search ⟨"a$b$c"⟩).trans (congrArg some around), around,
    (shorter _ _ around).2, (hidden _).mp alone, listed coherent _ _ rfl⟩

end Table

end NameTables
