import NameTables.Descriptor
import NameTables.Text.Split

/-! What renaming does to the text of a descriptor.
A descriptor that can be renamed is cut at its references in one way only. Each class in one is
replaced by its new name, and nothing else changes. Otherwise a reference stays open, and renaming
fails as soon as it comes there.
-/

namespace NameTables.Descriptor

-----------------------------------------------------------------------------------------
-- Texts cut at their references
-----------------------------------------------------------------------------------------

/-- The references of a text, each with what stands in front of it, and what stands behind the last
one.
-/
structure Cut where
  references : List (List Char × ClassName)
  rest : List Char

namespace Cut

/-- References in a row, with what stands between them. -/
def spell (references : List (List Char × ClassName)) : List Char :=
  references.flatMap fun (gap, name) => gap ++ 'L' :: name.text.toList ++ [';']

def chars (cut : Cut) : List Char := spell cut.references ++ cut.rest

def descriptor (cut : Cut) : Descriptor := ⟨String.ofList cut.chars⟩

/-- No reference is left in the gaps, and each one ends at the first semicolon. -/
structure WellFormed (cut : Cut) : Prop where
  gaps : ∀ reference ∈ cut.references, 'L' ∉ reference.1
  names : ∀ reference ∈ cut.references, ';' ∉ reference.2.text.toList
  rest : 'L' ∉ cut.rest

/-- The descriptor is cut at its references. -/
def Spells (cut : Cut) (descriptor : Descriptor) : Prop :=
  cut.WellFormed ∧ descriptor.text.toList = cut.chars

/-- Behind `front`, a reference begins that no semicolon ends. -/
def StopsIn (front : Cut) (descriptor : Descriptor) : Prop :=
  front.WellFormed
  ∧ ∃ rest, ';' ∉ rest ∧ descriptor.text.toList = front.chars ++ 'L' :: rest

/-- Replaces the classes in the references. -/
def rename (newName : ClassName → ClassName) (cut : Cut) : Cut :=
  { cut with references := cut.references.map fun (gap, name) => (gap, newName name) }

def renameReference (renamer : Renamer) (reference : List Char × ClassName)
    : Outcome (List Char × ClassName) := do
  return (reference.1, ← renamer.newName reference.2)

/-- Replaces the classes in the references from left to right. -/
def renameBy (renamer : Renamer) (cut : Cut) : Outcome Cut := do
  return { cut with references := ← cut.references.mapM (renameReference renamer) }

theorem spell_cons (reference : List Char × ClassName) (references : List (List Char × ClassName))
    : spell (reference :: references)
      = reference.1 ++ 'L' :: (reference.2.text.toList ++ ';' :: spell references) := by
  simp [spell]

/-- Every text is cut at its references, unless one of them stays open, by induction on its length.
-/
theorem exists_wellFormed (chars : List Char)
    : ∃ cut : Cut,
        cut.WellFormed
        ∧ (chars = cut.chars ∨ ∃ rest, ';' ∉ rest ∧ chars = cut.chars ++ 'L' :: rest) := by
  by_cases refers : 'L' ∈ chars
  · obtain ⟨gap, rest, rfl, plain⟩ := List.eq_append_cons_of_mem refers
    by_cases closed : ';' ∈ rest
    · obtain ⟨name, behind, rfl, inside⟩ := List.eq_append_cons_of_mem closed
      obtain ⟨cut, ⟨gaps, names, last⟩, whole⟩ := exists_wellFormed behind
      have front := spell_cons (gap, ⟨String.ofList name⟩) cut.references
      rw [String.toList_ofList] at front
      refine ⟨⟨(gap, ⟨String.ofList name⟩) :: cut.references, cut.rest⟩, ⟨?_, ?_, last⟩, ?_⟩
      · exact List.forall_mem_cons.mpr ⟨plain, gaps⟩
      · exact List.forall_mem_cons.mpr ⟨by rwa [String.toList_ofList], names⟩
      · rw [Cut.chars, front]
        rcases whole with whole | ⟨rest, unclosed, whole⟩
        · left
          rw [whole, Cut.chars]
          simp
        · right
          refine ⟨rest, unclosed, ?_⟩
          rw [whole, Cut.chars]
          simp
    · exact ⟨⟨[], gap⟩, ⟨by simp, by simp, plain⟩, Or.inr ⟨rest, closed, rfl⟩⟩
  · exact ⟨⟨[], chars⟩, ⟨by simp, by simp, refers⟩, Or.inl rfl⟩
termination_by chars.length
decreasing_by
  subst_vars
  simp only [List.length_append, List.length_cons]
  omega

/-- A descriptor is cut at its references, or one of them stays open. -/
theorem exists_spells_or_stopsIn (descriptor : Descriptor)
    : (∃ cut : Cut, cut.Spells descriptor) ∨ ∃ front : Cut, front.StopsIn descriptor := by
  obtain ⟨cut, well_formed, whole | unclosed⟩ := exists_wellFormed descriptor.text.toList
  · exact Or.inl ⟨cut, well_formed, whole⟩
  · exact Or.inr ⟨cut, well_formed, unclosed⟩

/-- A text is cut in one way only, by induction on the references. -/
theorem WellFormed.eq_of_chars_eq {cut cut' : Cut} (well_formed : cut.WellFormed)
    (well_formed' : cut'.WellFormed) (same : cut.chars = cut'.chars)
    : cut = cut' := by
  obtain ⟨references, rest⟩ := cut
  obtain ⟨references', rest'⟩ := cut'
  induction references generalizing references' with
  | nil =>
      cases references' with
      | nil => exact congrArg (Cut.mk []) same
      | cons reference' references' =>
          have whole : rest = spell (reference' :: references') ++ rest' := same
          rw [spell_cons] at whole
          exact absurd (by simp [whole]) well_formed.rest
  | cons reference references ih =>
      obtain ⟨gaps, names, last⟩ := well_formed
      cases references' with
      | nil =>
          have whole : spell (reference :: references) ++ rest = rest' := same
          rw [spell_cons] at whole
          exact absurd (by simp [← whole]) well_formed'.rest
      | cons reference' references' =>
          obtain ⟨gaps', names', last'⟩ := well_formed'
          obtain ⟨plain, gaps⟩ := List.forall_mem_cons.mp gaps
          obtain ⟨plain', gaps'⟩ := List.forall_mem_cons.mp gaps'
          obtain ⟨inside, names⟩ := List.forall_mem_cons.mp names
          obtain ⟨inside', names'⟩ := List.forall_mem_cons.mp names'
          simp only [chars, spell_cons, List.append_assoc, List.cons_append] at same
          obtain ⟨gap_eq, same⟩ := Text.append_cons_inj plain plain' same
          obtain ⟨name_eq, same⟩ := Text.append_cons_inj inside inside' same
          have reference_eq : reference = reference' :=
            Prod.ext gap_eq (Name.ext (String.toList_inj.mp name_eq))
          have cut_eq := ih ⟨gaps, names, last⟩ references' ⟨gaps', names', last'⟩ same
          rw [Cut.mk.injEq] at cut_eq ⊢
          exact ⟨by rw [reference_eq, cut_eq.1], cut_eq.2⟩

theorem Spells.unique {cut cut' : Cut} {descriptor : Descriptor} (spells : cut.Spells descriptor)
    (spells' : cut'.Spells descriptor)
    : cut = cut' :=
  spells.1.eq_of_chars_eq spells'.1 (spells.2.symm.trans spells'.2)

end Cut

-----------------------------------------------------------------------------------------
-- Renaming from left to right
-----------------------------------------------------------------------------------------

variable {renamer : Renamer} {descriptor : Descriptor}

/-- What stands between references is kept, by list induction. -/
theorem renameCharsBy_gap {gap : List Char} (plain : 'L' ∉ gap) (rest : List Char)
    : renameCharsBy renamer descriptor (gap ++ rest)
      = (gap ++ ·) <$> renameCharsBy renamer descriptor rest := by
  induction gap with
  | nil => simp
  | cons c gap ih =>
      obtain ⟨other, plain⟩ := List.ne_and_not_mem_of_not_mem_cons plain
      rw [List.cons_append, renameCharsBy, if_neg (Ne.symm other), ih plain]
      simp only [map_eq_pure_bind, bind_assoc, pure_bind, List.cons_append]

/-- The class up to the next semicolon is replaced. -/
theorem renameCharsBy_reference {name : ClassName} (inside : ';' ∉ name.text.toList)
    (rest : List Char)
    : renameCharsBy renamer descriptor ('L' :: (name.text.toList ++ ';' :: rest))
      = do
          let newName ← renamer.newName name
          let renamed ← renameCharsBy renamer descriptor rest
          return 'L' :: newName.text.toList ++ ';' :: renamed := by
  have before : ∀ c ∈ name.text.toList, decide (c ≠ ';') = true := by
    intro c member
    rw [decide_eq_true_eq]
    rintro rfl
    exact inside member
  rw [renameCharsBy, if_pos rfl, if_pos (by simp), List.takeWhile_append_of_pos before,
    List.dropWhile_append_of_pos before]
  simp

theorem renameCharsBy_open {rest : List Char} (unclosed : ';' ∉ rest)
    : renameCharsBy renamer descriptor ('L' :: rest)
      = .error (.malformed 0 (.openReference descriptor)) := by
  rw [renameCharsBy, if_pos rfl, if_neg unclosed]

namespace Cut

/-- References are renamed one after the other, and then what is behind them, by list induction. -/
theorem renameCharsBy_spell {references : List (List Char × ClassName)}
    (gaps : ∀ reference ∈ references, 'L' ∉ reference.1)
    (names : ∀ reference ∈ references, ';' ∉ reference.2.text.toList) (rest : List Char)
    : renameCharsBy renamer descriptor (spell references ++ rest)
      = do
          let renamed ← references.mapM (renameReference renamer)
          let renamedRest ← renameCharsBy renamer descriptor rest
          return spell renamed ++ renamedRest := by
  induction references with
  | nil => simp [spell]
  | cons reference references ih =>
      obtain ⟨plain, gaps⟩ := List.forall_mem_cons.mp gaps
      obtain ⟨inside, names⟩ := List.forall_mem_cons.mp names
      have whole : spell (reference :: references) ++ rest
          = reference.1
            ++ 'L' :: (reference.2.text.toList ++ ';' :: (spell references ++ rest)) := by
        simp [spell_cons]
      rw [whole, renameCharsBy_gap plain, renameCharsBy_reference inside, ih gaps names,
        List.mapM_cons]
      simp only [renameReference, bind_assoc, pure_bind, map_eq_pure_bind, spell_cons,
        List.append_assoc, List.cons_append]

/-- Renaming a descriptor is renaming in its cut. -/
theorem Spells.renameBy_eq {cut : Cut} (spells : cut.Spells descriptor)
    : descriptor.renameBy renamer = Cut.descriptor <$> cut.renameBy renamer := by
  obtain ⟨⟨gaps, names, last⟩, whole⟩ := spells
  have kept : renameCharsBy renamer descriptor cut.rest = .ok cut.rest := by
    have renamed : renameCharsBy renamer descriptor (cut.rest ++ []) = _ :=
      renameCharsBy_gap last []
    rw [List.append_nil, renameCharsBy] at renamed
    exact renamed.trans (congrArg Except.ok (List.append_nil cut.rest))
  rw [Descriptor.renameBy, whole, chars, renameCharsBy_spell gaps names, kept, Cut.renameBy]
  simp only [bind_assoc, pure_bind, map_eq_pure_bind]
  rfl

/-- Renaming fails where a reference stays open, unless it fails before. -/
theorem StopsIn.renameBy_eq {front : Cut} (stops : front.StopsIn descriptor)
    : descriptor.renameBy renamer
      = front.renameBy renamer >>= fun _ =>
          .error (.malformed 0 (.openReference descriptor)) := by
  obtain ⟨⟨gaps, names, last⟩, rest, unclosed, whole⟩ := stops
  rw [Descriptor.renameBy, whole, chars, List.append_assoc, renameCharsBy_spell gaps names,
    renameCharsBy_gap last, renameCharsBy_open unclosed, Cut.renameBy]
  simp only [bind_assoc, pure_bind, map_eq_pure_bind]
  rfl

end Cut

-----------------------------------------------------------------------------------------
-- Renaming that has an answer for every class
-----------------------------------------------------------------------------------------

/-- The new name of a class, which keeps its own if no other one is known. -/
def keeping (known : ClassName → Option ClassName) (name : ClassName) : ClassName :=
  (known name).getD name

/-- With an answer for every class, the pieces are renamed or the text has none, by induction on
them.
-/
theorem renameCharsBy_known (known : ClassName → Option ClassName) (chars : List Char)
    : renameCharsBy (fun name => .ok (known name)) descriptor chars
      = match pieces? chars with
        | some pieces => .ok (write (pieces.map (Piece.rename (keeping known))))
        | none => .error (.malformed 0 (.openReference descriptor)) := by
  fun_induction pieces? chars with
  | case1 => rw [renameCharsBy]; rfl
  | case2 rest closed ih =>
      rw [renameCharsBy, if_pos rfl, if_pos closed, ih]
      cases pieces? ((rest.dropWhile (· ≠ ';')).drop 1) with
      | none => rfl
      | some pieces => simp [write, Piece.chars, Piece.rename]; rfl
  | case3 rest unclosed => rw [renameCharsBy, if_pos rfl, if_neg unclosed]
  | case4 c rest plain ih =>
      rw [renameCharsBy, if_neg plain, ih]
      cases pieces? rest with
      | none => rfl
      | some pieces => rfl

theorem renameBy_known (known : ClassName → Option ClassName) (descriptor : Descriptor)
    : descriptor.renameBy (fun name => .ok (known name)) = descriptor.rename (keeping known) := by
  rw [renameBy, renameCharsBy_known, rename]
  cases pieces? descriptor.text.toList <;> rfl

namespace Cut

theorem renameBy_known (known : ClassName → Option ClassName) (cut : Cut)
    : cut.renameBy (fun name => .ok (known name)) = .ok (cut.rename (keeping known)) := by
  have renamed : cut.references.mapM (renameReference fun name => .ok (known name))
      = .ok (cut.references.map fun (gap, name) => (gap, keeping known name)) :=
    List.mapM_pure
  rw [Cut.renameBy, renamed]
  rfl

theorem Spells.rename_eq {cut : Cut} (spells : cut.Spells descriptor)
    (known : ClassName → Option ClassName)
    : descriptor.rename (keeping known) = .ok (cut.rename (keeping known)).descriptor := by
  rw [← Descriptor.renameBy_known, spells.renameBy_eq, renameBy_known]
  rfl

theorem StopsIn.rename_eq {front : Cut} (stops : front.StopsIn descriptor)
    (known : ClassName → Option ClassName)
    : descriptor.rename (keeping known) = .error (.malformed 0 (.openReference descriptor)) := by
  rw [← Descriptor.renameBy_known, stops.renameBy_eq, renameBy_known]
  rfl

end Cut

/-- Renaming returns the text of the cut with the classes in it replaced. -/
theorem rename_keeping_eq_ok_iff {known : ClassName → Option ClassName} {renamed : Descriptor}
    : descriptor.rename (keeping known) = .ok renamed
      ↔ ∃ cut : Cut,
          cut.Spells descriptor ∧ renamed = (cut.rename (keeping known)).descriptor := by
  constructor
  · intro returns
    rcases Cut.exists_spells_or_stopsIn descriptor with ⟨cut, spells⟩ | ⟨front, stops⟩
    · exact ⟨cut, spells, Except.ok.inj (returns.symm.trans (spells.rename_eq known))⟩
    · cases returns.symm.trans (stops.rename_eq known)
  · intro given
    obtain ⟨cut, spells, rfl⟩ := given
    exact spells.rename_eq known

/-- Renaming fails exactly if the descriptor cannot be cut. -/
theorem rename_keeping_eq_error_iff {known : ClassName → Option ClassName} {failure : Failure}
    : descriptor.rename (keeping known) = .error failure
      ↔ (¬∃ cut : Cut, cut.Spells descriptor)
        ∧ failure = .malformed 0 (.openReference descriptor) := by
  constructor
  · intro fails
    refine ⟨fun cuts => ?_, ?_⟩
    · obtain ⟨cut, spells⟩ := cuts
      cases fails.symm.trans (spells.rename_eq known)
    · rcases Cut.exists_spells_or_stopsIn descriptor with ⟨cut, spells⟩ | ⟨front, stops⟩
      · cases fails.symm.trans (spells.rename_eq known)
      · exact Except.error.inj (fails.symm.trans (stops.rename_eq known))
  · intro given
    obtain ⟨uncut, rfl⟩ := given
    obtain ⟨front, stops⟩ := (Cut.exists_spells_or_stopsIn descriptor).resolve_left uncut
    exact stops.rename_eq known

/-- A descriptor is cut at its references in one way at most. If it is, renaming replaces each class
by its new name where one is known, and keeps all else. If it is not, renaming fails at the
reference that stays open. A renamer that fails itself is asked from left to right, until its first
failure.
-/
theorem rename_replaces (descriptor : Descriptor)
    : (∀ cut cut' : Cut, cut.Spells descriptor → cut'.Spells descriptor → cut = cut')
      ∧ (∀ known : ClassName → Option ClassName,
          (∀ renamed, descriptor.rename (keeping known) = .ok renamed
            ↔ ∃ cut : Cut,
                cut.Spells descriptor ∧ renamed = (cut.rename (keeping known)).descriptor)
          ∧ (∀ failure, descriptor.rename (keeping known) = .error failure
            ↔ (¬∃ cut : Cut, cut.Spells descriptor)
              ∧ failure = .malformed 0 (.openReference descriptor))
          ∧ descriptor.renameBy (fun name => .ok (known name))
            = descriptor.rename (keeping known))
      ∧ ∀ renamer : Renamer,
          (∀ cut : Cut, cut.Spells descriptor →
            descriptor.renameBy renamer = Cut.descriptor <$> cut.renameBy renamer)
          ∧ ((¬∃ cut : Cut, cut.Spells descriptor) →
              ∃ front : Cut,
                front.StopsIn descriptor
                ∧ descriptor.renameBy renamer
                  = front.renameBy renamer >>= fun _ =>
                      .error (.malformed 0 (.openReference descriptor))) := by
  refine ⟨fun cut cut' spells spells' => spells.unique spells',
    fun known => ⟨fun renamed => rename_keeping_eq_ok_iff,
      fun failure => rename_keeping_eq_error_iff, renameBy_known known descriptor⟩,
    fun renamer => ⟨fun cut spells => spells.renameBy_eq, fun uncut => ?_⟩⟩
  obtain ⟨front, stops⟩ := (Cut.exists_spells_or_stopsIn descriptor).resolve_left uncut
  exact ⟨front, stops, stops.renameBy_eq⟩

/-- An empty reference and one with an `L` in it, for `(La;IL;LLa;)V`. -/
def crowded : Cut := ⟨[(['('], ⟨"a"⟩), (['I'], ⟨""⟩), ([], ⟨"La"⟩)], [')', 'V']⟩

/-- Knows the new name of one class. -/
def knownOne (name : ClassName) : Option ClassName := if name = ⟨"a"⟩ then some ⟨"x/Y"⟩ else none

/-- Has no answer for the empty name. -/
def failing : Renamer := fun name =>
  if name = ⟨""⟩ then .fail (.file .missing) else .ok (knownOne name)

theorem rename_replaces_crowded
    : crowded.Spells ⟨"(La;IL;LLa;)V"⟩
      ∧ (∀ cut : Cut, cut.Spells ⟨"(La;IL;LLa;)V"⟩ → cut = crowded)
      ∧ rename (keeping knownOne) ⟨"(La;IL;LLa;)V"⟩ = .ok ⟨"(Lx/Y;IL;LLa;)V"⟩
      ∧ renameBy failing ⟨"(La;IL;LLa;)V"⟩ = .fail (.file .missing)
      ∧ (¬∃ cut : Cut, cut.Spells ⟨"La;LLa"⟩)
      ∧ ∃ front : Cut,
          front.StopsIn ⟨"La;LLa"⟩
          ∧ renameBy failing ⟨"La;LLa"⟩
            = front.renameBy failing >>= fun _ =>
                .error (.malformed 0 (.openReference ⟨"La;LLa"⟩)) := by
  have spells : crowded.Spells ⟨"(La;IL;LLa;)V"⟩ :=
    ⟨⟨by decide, by decide, by decide⟩, by decide⟩
  obtain ⟨unique, known, answered⟩ := rename_replaces ⟨"(La;IL;LLa;)V"⟩
  obtain ⟨_, known', answered'⟩ := rename_replaces ⟨"La;LLa"⟩
  have fails : rename (keeping knownOne) ⟨"La;LLa"⟩
      = .error (.malformed 0 (.openReference ⟨"La;LLa"⟩)) := by cbv
  have uncut := (((known' knownOne).2.1 _).mp fails).1
  refine ⟨spells, fun cut other => unique _ _ other spells,
    ((known knownOne).1 _).mpr ⟨crowded, spells, by decide⟩,
    ((answered failing).1 crowded spells).trans rfl, uncut, (answered' failing).2 uncut⟩

end NameTables.Descriptor
