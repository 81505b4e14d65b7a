import NameTables.Proofs.Nested.Enclosing

/-! What the target name of a nested class is made of.
The classes that a class is nested in form a chain, and the first one in it with a target name
decides: its target takes the place of its own name. So classes without a target name do not matter,
whether the table has them or not.
-/

namespace NameTables

/-- What stands behind the first bytes of a text. Nothing does if the text ends before, or if they
end within a character.
-/
def Text.behindBytes? (text : String) (count : Nat) : Option String :=
  if valid : String.Pos.Raw.IsValid text ⟨count⟩ then
    some (text.sliceFrom ⟨⟨count⟩, valid⟩).copy
  else none

theorem Text.behindBytes?_append (front back : String)
    : behindBytes? (front ++ back) front.utf8ByteSize = some back := by
  have valid : String.Pos.Raw.IsValid (front ++ back) ⟨front.utf8ByteSize⟩ :=
    String.Pos.Raw.isValid_iff_exists_append.mpr ⟨front, back, rfl, rfl⟩
  have parts : (⟨⟨front.utf8ByteSize⟩, valid⟩ : (front ++ back).Pos).Splits front back := ⟨rfl, rfl⟩
  rw [behindBytes?, dif_pos valid, parts.copy_sliceFrom_eq]

namespace Table

-----------------------------------------------------------------------------------------
-- The classes that a class is nested in
-----------------------------------------------------------------------------------------

variable {n : Nat}

/-- The classes that a class is nested in, from the one directly around it outwards. -/
def outers (table : Table n) (name : ClassName) : List ClassName :=
  match h : table.outer? name with
  | some outer =>
      have := length_lt_of_outer? h
      outer :: table.outers outer
  | none => []
termination_by name.text.toList.length

theorem outers_of_outer? {table : Table n} {name outer : ClassName}
    (found : table.outer? name = some outer)
    : table.outers name = outer :: table.outers outer := by
  rw [outers]
  split
  · next around around_found =>
    obtain rfl := Option.some.inj (found.symm.trans around_found)
    rfl
  · next absent => simp [found] at absent

theorem outers_of_outer?_eq_none {table : Table n} {name : ClassName}
    (absent : table.outer? name = none)
    : table.outers name = [] := by
  rw [outers]
  split
  · next around found => simp [absent] at found
  · rfl

/-- Classes that are in the same class directly are in the same classes. -/
theorem outers_eq_of_outer?_eq {table : Table n} {name name' : ClassName}
    (same : table.outer? name = table.outer? name')
    : table.outers name = table.outers name' := by
  cases found : table.outer? name' with
  | some outer => rw [outers_of_outer? (same.trans found), outers_of_outer? found]
  | none => rw [outers_of_outer?_eq_none (same.trans found), outers_of_outer?_eq_none found]

/-- They are the enclosing classes that the table has, by induction along the chain. -/
theorem outers_eq_filter_enclosing (table : Table n) (name : ClassName)
    : table.outers name = name.enclosing.filter table.classes.contains := by
  induction name using Name.enclosing.induct with
  | case1 name next simple split shorter ih =>
      have outer_eq := table.outer?_of_split? split
      rw [Name.enclosing_of_split? split]
      by_cases stored : next ∈ table.classes.keys
      · rw [if_pos stored] at outer_eq
        rw [List.filter_cons_of_pos (contains_iff.mpr stored), outers_of_outer? outer_eq, ih]
      · rw [if_neg stored] at outer_eq
        rw [List.filter_cons_of_neg (mt contains_iff.mp stored), outers_eq_of_outer?_eq outer_eq,
          ih]
  | case2 name split =>
      have chain := Name.enclosing_of_split?_eq_none split
      have absent : table.outer? name = none := by rw [outer?, chain, List.find?_nil]
      rw [outers_of_outer?_eq_none absent, chain, List.filter_nil]

-----------------------------------------------------------------------------------------
-- The first one with a target name
-----------------------------------------------------------------------------------------

variable (table : Table 2)

/-- The first class with a target name, from `name` outwards. -/
def closestNamed? (name : ClassName) : Option ClassName :=
  (name :: table.outers name).find? fun outer => (table.target? outer).isSome

variable {table}

/-- What has a target name is in the table, so all enclosing classes can be gone through. -/
theorem closestNamed?_eq_find?_around (name : ClassName)
    : table.closestNamed? name
      = name.around.find? fun outer => (table.target? outer).isSome := by
  have stored {outer : ClassName} (named : (table.target? outer).isSome = true)
      : table.classes.contains outer = true := by
    obtain ⟨target, named⟩ := Option.isSome_iff_exists.mp named
    obtain ⟨cls, found, _⟩ := Option.bind_eq_some_iff.mp named
    exact contains_iff.mpr (mem_keys_iff.mpr ⟨cls, found⟩)
  have passes (outer : ClassName)
      : decide (table.classes.contains outer = true ∧ (table.target? outer).isSome = true)
        = (table.target? outer).isSome := by
    rw [Bool.eq_iff_iff, decide_eq_true_eq]
    exact and_iff_right_of_imp stored
  rw [closestNamed?, Name.around, List.find?_cons, List.find?_cons, outers_eq_filter_enclosing,
    List.find?_filter]
  simp only [passes]

theorem closestNamed?_of_outer? {name outer : ClassName} (unnamed : table.target? name = none)
    (found : table.outer? name = some outer)
    : table.closestNamed? name = table.closestNamed? outer := by
  rw [closestNamed?, List.find?_cons_of_neg (by simp [unnamed]), outers_of_outer? found]
  rfl

theorem exists_target?_of_closestNamed? {name closest : ClassName}
    (first : table.closestNamed? name = some closest)
    : ∃ target, table.target? closest = some target := by
  rw [closestNamed?] at first
  have named := List.find?_some first
  exact Option.isSome_iff_exists.mp named

/-- The step from a class to the one that it is in directly takes what stands behind that one. -/
theorem fullTarget_eq_nested {name outer : ClassName} (found : table.outer? name = some outer)
    : ∃ rest, Text.behindBytes? name.text (outer.text.utf8ByteSize + 1) = some rest
        ∧ name.text = outer.text ++ "$" ++ rest
        ∧ (table.target? name = none
          → table.fullTarget name = (table.fullTarget outer).nested rest) := by
  obtain ⟨_, rest, text_eq, _⟩ := Name.mem_enclosing_iff.mp (mem_enclosing_of_outer? found)
  refine ⟨rest, ?_, text_eq, fun unnamed => ?_⟩
  · have behind := Text.behindBytes?_append (outer.text ++ "$") rest
    rwa [String.utf8ByteSize_append, ← text_eq] at behind
  · have dropped : name.text.toList.drop (outer.text.toList.length + 1) = rest.toList := by
      simp [text_eq]
    rw [fullTarget_of_outer? unnamed found, dropped, String.ofList_toList]

/-- The target of the closest class that has one takes the place of its name, by induction
outwards.
-/
theorem fullTarget_of_closestNamed? {name closest target : ClassName}
    (first : table.closestNamed? name = some closest) (named : table.target? closest = some target)
    : ∃ rest, name.text = closest.text ++ rest ∧ table.fullTarget name = ⟨target.text ++ rest⟩ := by
  induction name using Table.fullTarget.induct table with
  | case1 name own own_named =>
      rw [closestNamed?, List.find?_cons_of_pos (by simp [own_named])] at first
      obtain rfl := Option.some.inj first
      obtain rfl := Option.some.inj (own_named.symm.trans named)
      refine ⟨"", String.append_empty.symm, ?_⟩
      rw [fullTarget_of_target? named, String.append_empty]
  | case2 name unnamed outer found shorter ih =>
      rw [closestNamed?_of_outer? unnamed found] at first
      obtain ⟨between, outer_eq, full_eq⟩ := ih first
      obtain ⟨rest, _, text_eq, step⟩ := fullTarget_eq_nested found
      refine ⟨between ++ "$" ++ rest, ?_, ?_⟩
      · rw [text_eq, outer_eq]
        simp only [String.append_assoc]
      · rw [step unnamed, full_eq, Name.nested]
        simp only [String.append_assoc]
  | case3 name unnamed absent =>
      rw [closestNamed?, outers_of_outer?_eq_none absent,
        List.find?_cons_of_neg (by simp [unnamed])] at first
      cases first

/-- Without any such class the name stays, by induction outwards. -/
theorem fullTarget_of_closestNamed?_eq_none {name : ClassName}
    (none_named : table.closestNamed? name = none)
    : table.fullTarget name = name := by
  induction name using Table.fullTarget.induct table with
  | case1 name own own_named =>
      rw [closestNamed?, List.find?_cons_of_pos (by simp [own_named])] at none_named
      cases none_named
  | case2 name unnamed outer found shorter ih =>
      obtain ⟨rest, _, text_eq, step⟩ := fullTarget_eq_nested found
      rw [closestNamed?_of_outer? unnamed found] at none_named
      rw [step unnamed, ih none_named, Name.nested, ← text_eq]
  | case3 name unnamed absent => exact fullTarget_of_outer?_eq_none unnamed absent

/-- Only the classes with a target name tell which full target names there are. -/
theorem fullTarget_congr {table' : Table 2}
    (same : ∀ name, table'.target? name = table.target? name) (name : ClassName)
    : table'.fullTarget name = table.fullTarget name := by
  have closest_eq : table'.closestNamed? name = table.closestNamed? name := by
    simp only [closestNamed?_eq_find?_around, same]
  cases first : table.closestNamed? name with
  | none =>
      rw [fullTarget_of_closestNamed?_eq_none first,
        fullTarget_of_closestNamed?_eq_none (closest_eq.trans first)]
  | some closest =>
      obtain ⟨target, named⟩ := exists_target?_of_closestNamed? first
      obtain ⟨rest, text_eq, full_eq⟩ := fullTarget_of_closestNamed? first named
      obtain ⟨rest', text_eq', full_eq'⟩ :=
        fullTarget_of_closestNamed? (closest_eq.trans first) ((same closest).trans named)
      have rest_eq : rest' = rest := by
        rw [text_eq] at text_eq'
        simpa using text_eq'.symm
      rw [full_eq, full_eq', rest_eq]

/-- Every step from a class to the one around it finds what follows that one in the name. In the end
the target of the closest class that has one takes the place of its name, or the name stays if there
is no such class. Other classes without a target name can come and go.
-/
theorem fullTarget_carries (table : Table 2) (name : ClassName)
    : (∀ {inner outer : ClassName}, table.outer? inner = some outer →
        ∃ rest, Text.behindBytes? inner.text (outer.text.utf8ByteSize + 1) = some rest
          ∧ inner.text = outer.text ++ "$" ++ rest
          ∧ (table.target? inner = none
            → table.fullTarget inner = (table.fullTarget outer).nested rest))
      ∧ (∀ {closest target : ClassName}, table.closestNamed? name = some closest →
          table.target? closest = some target →
          ∃ rest, name.text = closest.text ++ rest
            ∧ table.fullTarget name = ⟨target.text ++ rest⟩)
      ∧ (table.closestNamed? name = none → table.fullTarget name = name)
      ∧ ∀ table' : Table 2,
          (∀ other, table'.class? other = table.class? other
            ∨ table'.target? other = none ∧ table.target? other = none) →
          table'.fullTarget name = table.fullTarget name := by
  refine ⟨fullTarget_eq_nested, fullTarget_of_closestNamed?, fullTarget_of_closestNamed?_eq_none,
    fun table' changed => fullTarget_congr (fun other => ?_) name⟩
  rcases changed other with kept | ⟨unnamed', unnamed⟩
  · rw [target?, target?, kept]
  · rw [unnamed', unnamed]

/-- A class two levels below the one that has a target name. -/
def skippedOuter : Table 2 :=
  (Table.empty ⟨#v["official", "mojang"]⟩).declareAll
    [⟨.cls ⟨"ä"⟩, .pair (some ⟨"ä"⟩) (some ⟨"Outer"⟩)⟩,
      ⟨.cls ⟨"ä$b"⟩, .pair (some ⟨"ä$b"⟩) none⟩,
      ⟨.cls ⟨"ä$b$c"⟩, .pair (some ⟨"ä$b$c"⟩) none⟩]

/-- The class between them is gone, and another one is there. -/
def replacedOuter : Table 2 :=
  (Table.empty ⟨#v["official", "mojang"]⟩).declareAll
    [⟨.cls ⟨"ä$d"⟩, .pair (some ⟨"ä$d"⟩) none⟩,
      ⟨.cls ⟨"ä$b$c"⟩, .pair (some ⟨"ä$b$c"⟩) none⟩,
      ⟨.cls ⟨"ä"⟩, .pair (some ⟨"ä"⟩) (some ⟨"Outer"⟩)⟩]

theorem class?_skippedOuter (name : ClassName)
    : skippedOuter.class? name
      = if ⟨"ä"⟩ = name then some ⟨.pair (some ⟨"ä"⟩) (some ⟨"Outer"⟩), .empty, .empty⟩
        else if ⟨"ä$b"⟩ = name then some ⟨.pair (some ⟨"ä$b"⟩) none, .empty, .empty⟩
        else if ⟨"ä$b$c"⟩ = name then some ⟨.pair (some ⟨"ä$b$c"⟩) none, .empty, .empty⟩
        else none :=
  rfl

theorem class?_replacedOuter (name : ClassName)
    : replacedOuter.class? name
      = if ⟨"ä$d"⟩ = name then some ⟨.pair (some ⟨"ä$d"⟩) none, .empty, .empty⟩
        else if ⟨"ä$b$c"⟩ = name then some ⟨.pair (some ⟨"ä$b$c"⟩) none, .empty, .empty⟩
        else if ⟨"ä"⟩ = name then some ⟨.pair (some ⟨"ä"⟩) (some ⟨"Outer"⟩), .empty, .empty⟩
        else none :=
  rfl

theorem fullTarget_carries_skippedOuter
    : skippedOuter.outers ⟨"ä$b$c"⟩ = [⟨"ä$b"⟩, ⟨"ä"⟩]
      ∧ Text.behindBytes? "ä$b" ("ä".utf8ByteSize + 1) = some "b"
      ∧ skippedOuter.fullTarget ⟨"ä$b$c"⟩ = ⟨"Outer$b$c"⟩
      ∧ replacedOuter.outers ⟨"ä$b$c"⟩ = [⟨"ä"⟩]
      ∧ replacedOuter.fullTarget ⟨"ä$b$c"⟩ = ⟨"Outer$b$c"⟩ := by
  obtain ⟨steps, carried, _, kept⟩ := fullTarget_carries skippedOuter ⟨"ä$b$c"⟩
  have around : skippedOuter.outer? ⟨"ä$b"⟩ = some ⟨"ä"⟩ := by decide +kernel
  have first : skippedOuter.closestNamed? ⟨"ä$b$c"⟩ = some ⟨"ä"⟩ := by decide +kernel
  have changed (other : ClassName)
      : replacedOuter.class? other = skippedOuter.class? other
        ∨ replacedOuter.target? other = none ∧ skippedOuter.target? other = none := by
    by_cases between : ⟨"ä$b"⟩ = other
    · subst between
      exact Or.inr ⟨rfl, rfl⟩
    · by_cases added : ⟨"ä$d"⟩ = other
      · subst added
        exact Or.inr ⟨rfl, rfl⟩
      · left
        rw [class?_replacedOuter, class?_skippedOuter, if_neg added, if_neg between]
        grind
  obtain ⟨inner, cut, inner_eq, _⟩ := steps around
  obtain ⟨rest, text_eq, full_eq⟩ := carried first rfl
  have inner_eq : "ä$" ++ "b" = "ä$" ++ inner := inner_eq
  have text_eq : "ä" ++ "$b$c" = "ä" ++ rest := text_eq
  obtain rfl := (String.append_right_inj _).mp inner_eq
  obtain rfl := (String.append_right_inj _).mp text_eq
  exact ⟨by decide +kernel, cut, full_eq, by decide +kernel,
    (kept replacedOuter changed).trans full_eq⟩

end Table

end NameTables
