/-! Cutting lists at separators: at the last occurrence of one, and into lines.
A line ends with a line feed, before which one carriage return is dropped. What follows the last
line feed is a line too unless it is empty.
-/

namespace NameTables.Text

variable {α : Type}

/-- Parts that make one list around a separator are the same, or one separator stands before the
other one.
-/
theorem append_cons_eq_iff {sep : α} {front front' rest rest' : List α}
    : front ++ sep :: rest = front' ++ sep :: rest'
      ↔ (front = front' ∧ rest = rest')
        ∨ (∃ middle, front' = front ++ sep :: middle ∧ rest = middle ++ sep :: rest')
        ∨ ∃ middle, front = front' ++ sep :: middle ∧ rest' = middle ++ sep :: rest := by
  constructor
  · intro same
    rcases List.append_eq_append_iff.mp same with ⟨gap, longer, cut⟩ | ⟨gap, longer, cut⟩
    · cases gap with
      | nil => exact Or.inl ⟨by simpa using longer.symm, (List.cons.inj cut).2⟩
      | cons c middle =>
          obtain ⟨rfl, rest_eq⟩ := List.cons.inj cut
          exact Or.inr (Or.inl ⟨middle, longer, rest_eq⟩)
    · cases gap with
      | nil => exact Or.inl ⟨by simpa using longer, (List.cons.inj cut).2.symm⟩
      | cons c middle =>
          obtain ⟨rfl, rest_eq⟩ := List.cons.inj cut
          exact Or.inr (Or.inr ⟨middle, longer, rest_eq⟩)
  · intro given
    rcases given with ⟨rfl, rfl⟩ | ⟨middle, rfl, rfl⟩ | ⟨middle, rfl, rfl⟩
    · rfl
    · simp
    · simp

/-- Separators that none stands before are the same one. -/
theorem append_cons_inj {sep : α} {front front' rest rest' : List α} (absent : sep ∉ front)
    (absent' : sep ∉ front') (same : front ++ sep :: rest = front' ++ sep :: rest')
    : front = front' ∧ rest = rest' := by
  rcases append_cons_eq_iff.mp same with parts | ⟨middle, rfl, _⟩ | ⟨middle, rfl, _⟩
  · exact parts
  · simp at absent'
  · simp at absent

variable [DecidableEq α]

/-- What stands before and after the last occurrence of `sep`. -/
def splitAtLast (sep : α) : List α → Option (List α × List α)
  | [] => none
  | x :: xs =>
      match splitAtLast sep xs with
      | some (before, after) => some (x :: before, after)
      | none => if x = sep then some ([], xs) else none

theorem splitAtLast_eq_none_iff {sep : α} {xs : List α}
    : splitAtLast sep xs = none ↔ sep ∉ xs := by
  induction xs with
  | nil => simp [splitAtLast]
  | cons x xs ih =>
    cases h : splitAtLast sep xs with
    | none =>
      have absent := ih.mp h
      by_cases same : x = sep
      · simp [splitAtLast, h, same]
      · simp [splitAtLast, h, same, absent, Ne.symm same]
    | some parts =>
      have present : sep ∈ xs := by
        apply Classical.byContradiction
        intro absent
        simp [ih.mpr absent] at h
      simp [splitAtLast, h, present]

/-- The separator is lost, and none is left after it. -/
theorem splitAtLast_eq_some_iff {sep : α} {xs before after : List α}
    : splitAtLast sep xs = some (before, after)
      ↔ xs = before ++ sep :: after ∧ sep ∉ after := by
  induction xs generalizing before after with
  | nil => simp [splitAtLast]
  | cons x xs ih =>
    cases h : splitAtLast sep xs with
    | none =>
      have absent := splitAtLast_eq_none_iff.mp h
      by_cases same : x = sep
      · subst same
        cases before with
        | nil =>
          simp only [splitAtLast, h, if_true, Option.some.injEq, Prod.mk.injEq, true_and,
            List.nil_append, List.cons.injEq]
          exact ⟨fun e => ⟨e, e ▸ absent⟩, fun e => e.1⟩
        | cons y before =>
          simp only [splitAtLast, h, if_true, Option.some.injEq, Prod.mk.injEq]
          refine ⟨fun e => by simp at e, fun e => ?_⟩
          simp only [List.cons_append, List.cons.injEq] at e
          exact absurd (e.1.2 ▸ List.mem_append_right _ List.mem_cons_self) absent
      · simp only [splitAtLast, h, if_neg same]
        refine ⟨fun e => by simp at e, fun e => ?_⟩
        cases before with
        | nil => exact absurd (List.cons.inj e.1).1 same
        | cons y before =>
          simp only [List.cons_append, List.cons.injEq] at e
          exact absurd (e.1.2 ▸ List.mem_append_right _ List.mem_cons_self) absent
    | some parts =>
      obtain ⟨before', after'⟩ := parts
      obtain ⟨rfl, absent⟩ := ih.mp h
      simp only [splitAtLast, h, Option.some.injEq, Prod.mk.injEq]
      constructor
      · rintro ⟨rfl, rfl⟩
        exact ⟨rfl, absent⟩
      · rintro ⟨same, none_left⟩
        cases before with
        | nil =>
          simp only [List.nil_append, List.cons.injEq] at same
          exact absurd (same.2 ▸ List.mem_append_right _ List.mem_cons_self) none_left
        | cons y before =>
          simp only [List.cons_append, List.cons.injEq] at same
          obtain ⟨rfl, tails⟩ := same
          have found := ih.mpr ⟨tails, none_left⟩
          rw [h] at found
          simp only [Option.some.injEq, Prod.mk.injEq] at found
          exact ⟨by rw [found.1], found.2⟩

/-- What has no separator goes in front of the first piece. -/
theorem splitOn_append_of_not_mem {sep : α} {front : List α} (absent : sep ∉ front)
    (rest : List α)
    : (front ++ rest).splitOn sep = (rest.splitOn sep).modifyHead (front ++ ·) := by
  induction front with
  | nil =>
    cases h : rest.splitOn sep with
    | nil => simp [h]
    | cons head tail => simp [h]
  | cons x front ih =>
    rw [List.mem_cons, not_or] at absent
    rw [List.cons_append, List.splitOn_cons_eq_if_modifyHead, ih absent.2]
    cases rest.splitOn sep with
    | nil => simp [Ne.symm absent.1]
    | cons head tail => simp [Ne.symm absent.1]

/-- Drops one carriage return from the end. -/
def dropReturn (cr : α) (xs : List α) : List α :=
  if xs.getLast? = some cr then xs.dropLast else xs

/-- The lines of `xs`, without what ends them. -/
def splitLines (lf cr : α) (xs : List α) : List (List α) :=
  let pieces := xs.splitOn lf
  pieces.dropLast.map (dropReturn cr) ++ pieces.getLast?.toList.filter (· ≠ [])

end NameTables.Text
