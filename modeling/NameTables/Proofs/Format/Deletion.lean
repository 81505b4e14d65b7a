import NameTables.Proofs.Format.Rows

/-! Deleting lines from a file.
A line is deleted together with what ends it, so the lines around it stay as they are.
-/

namespace NameTables.Text

variable {α : Type} [DecidableEq α] {lf cr : α}

/-- The lines of `xs`, each with what ends it. Nothing ends the last one, which may be empty. -/
def chunks (lf : α) (xs : List α) : List (List α) :=
  let pieces := xs.splitOn lf
  pieces.dropLast.map (· ++ [lf]) ++ pieces.getLast?.toList

/-- All but the lines that are to be deleted. -/
def deleteLines (lf cr : α) (deleted : List α → Bool) (xs : List α) : List α :=
  ((chunks lf xs).filter fun chunk => !(splitLines lf cr chunk).any deleted).flatten

/-- Pieces without the separator come back when each is ended by one, by list induction. -/
theorem splitOn_flatMap {pieces : List (List α)} {last : List α}
    (absent : ∀ piece ∈ pieces, lf ∉ piece) (last_absent : lf ∉ last)
    : (pieces.flatMap (· ++ [lf]) ++ last).splitOn lf = pieces ++ [last] := by
  induction pieces with
  | nil =>
      rw [List.flatMap_nil, List.nil_append, ← List.append_nil last,
        splitOn_append_of_not_mem last_absent]
      simp
  | cons piece pieces ih =>
      rw [List.flatMap_cons, List.append_assoc, List.append_assoc,
        splitOn_append_of_not_mem (absent piece List.mem_cons_self), List.singleton_append,
        List.splitOn_cons_eq_if_modifyHead, if_pos (by simp),
        ih fun piece member => absent piece (List.mem_cons_of_mem _ member)]
      simp

theorem splitLines_flatMap (cr : α) {pieces : List (List α)} {last : List α}
    (absent : ∀ piece ∈ pieces, lf ∉ piece) (last_absent : lf ∉ last)
    : splitLines lf cr (pieces.flatMap (· ++ [lf]) ++ last)
      = pieces.map (dropReturn cr) ++ [last].filter (· ≠ []) := by
  rw [splitLines, splitOn_flatMap absent last_absent]
  simp

/-- Every list consists of ended pieces and a last one. -/
theorem exists_pieces (lf : α) (xs : List α)
    : ∃ (pieces : List (List α)) (last : List α),
        xs = pieces.flatMap (· ++ [lf]) ++ last
        ∧ (∀ piece ∈ pieces, lf ∉ piece) ∧ lf ∉ last := by
  induction xs with
  | nil => exact ⟨[], [], by simp⟩
  | cons x xs ih =>
      obtain ⟨pieces, last, rfl, absent, last_absent⟩ := ih
      by_cases same : x = lf
      · subst same
        refine ⟨[] :: pieces, last, by simp, ?_, last_absent⟩
        simpa using absent
      · cases pieces with
        | nil =>
            refine ⟨[], x :: last, by simp, by simp, ?_⟩
            simp [last_absent, Ne.symm same]
        | cons piece pieces =>
            refine ⟨(x :: piece) :: pieces, last, by simp, ?_, last_absent⟩
            simpa [Ne.symm same] using absent

theorem splitLines_ended (cr : α) {piece : List α} (absent : lf ∉ piece)
    : splitLines lf cr (piece ++ [lf]) = [dropReturn cr piece] := by
  have alone : ∀ other ∈ [piece], lf ∉ other := by simpa using absent
  simpa using splitLines_flatMap cr alone List.not_mem_nil

theorem splitLines_unended (cr : α) {last : List α} (absent : lf ∉ last)
    : splitLines lf cr last = [last].filter (· ≠ []) := by
  have none_before : ∀ piece ∈ ([] : List (List α)), lf ∉ piece := by simp
  simpa using splitLines_flatMap cr none_before absent

/-- Lines that all end are cut apart from what follows them. -/
theorem splitLines_append (cr : α) {front : List α}
    (ended : ∀ last ∈ front.getLast?, last = lf) (back : List α)
    : splitLines lf cr (front ++ back) = splitLines lf cr front ++ splitLines lf cr back := by
  obtain ⟨pieces, last, rfl, absent, last_absent⟩ := exists_pieces lf front
  obtain ⟨pieces', last', rfl, absent', last_absent'⟩ := exists_pieces lf back
  have nothing_left : last = [] := by
    rcases List.eq_nil_or_concat last with empty | ⟨init, item, rfl⟩
    · exact empty
    · have ends := ended item (by simp [List.getLast?_append])
      exact absurd ends (by rintro rfl; simp at last_absent)
  subst nothing_left
  have all_absent : ∀ piece ∈ pieces ++ pieces', lf ∉ piece := by
    intro piece member
    exact (List.mem_append.mp member).elim (absent piece) (absent' piece)
  have whole := splitLines_flatMap cr all_absent last_absent'
  rw [List.flatMap_append, List.append_assoc] at whole
  rw [List.append_nil, whole, splitLines_flatMap cr absent' last_absent',
    ← List.append_nil (pieces.flatMap _), splitLines_flatMap cr absent List.not_mem_nil]
  simp

/-- The pieces that are left are ended as before. -/
theorem deleteLines_flatMap (cr : α) (deleted : List α → Bool) {pieces : List (List α)}
    {last : List α} (absent : ∀ piece ∈ pieces, lf ∉ piece) (last_absent : lf ∉ last)
    : deleteLines lf cr deleted (pieces.flatMap (· ++ [lf]) ++ last)
      = (pieces.filter fun piece => !deleted (dropReturn cr piece)).flatMap (· ++ [lf])
        ++ if deleted last then [] else last := by
  have cut : chunks lf (pieces.flatMap (· ++ [lf]) ++ last)
      = pieces.map (· ++ [lf]) ++ [last] := by
    simp [chunks, splitOn_flatMap absent last_absent]
  rw [deleteLines, cut, List.filter_append, List.flatten_append, List.filter_map,
    ← List.flatMap_def]
  congr 1
  · congr 1
    apply List.filter_congr
    intro piece member
    simp [splitLines_ended cr (absent piece member)]
  · by_cases empty : last = [] <;> by_cases gone : deleted last <;>
      simp [splitLines_unended cr last_absent, empty, gone]

/-- Deleting lines leaves the other ones. -/
theorem splitLines_deleteLines (lf cr : α) (deleted : List α → Bool) (xs : List α)
    : splitLines lf cr (deleteLines lf cr deleted xs)
      = (splitLines lf cr xs).filter fun line => !deleted line := by
  obtain ⟨pieces, last, rfl, absent, last_absent⟩ := exists_pieces lf xs
  have kept_absent : ∀ piece ∈ pieces.filter fun piece => !deleted (dropReturn cr piece),
      lf ∉ piece :=
    fun piece member => absent piece (List.mem_filter.mp member).1
  have rest_absent : lf ∉ if deleted last then [] else last := by
    split
    · exact List.not_mem_nil
    · exact last_absent
  rw [deleteLines_flatMap cr deleted absent last_absent,
    splitLines_flatMap cr kept_absent rest_absent, splitLines_flatMap cr absent last_absent,
    List.filter_append, List.filter_map]
  congr 1
  by_cases empty : last = [] <;> by_cases gone : deleted last <;> simp [empty, gone]

/-- The texts of the lines of a file, without their numbers. -/
theorem Line.map_text_ofContent (content : ByteArray)
    : (Line.ofContent content).map Line.text
      = (splitLines 10 13 content.data.toList).map decode := by
  have numbered := List.zipIdx_map_fst 1 (splitLines 10 13 content.data.toList)
  rw [Line.ofContent, List.map_map, ← numbered, List.map_map, numbered]
  rfl

end NameTables.Text
