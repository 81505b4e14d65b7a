import NameTables.Names

/-! References to classes in descriptors.
A descriptor is read from left to right. An `L` opens a reference to the class whose name stands
before the next `;`, and all else is kept as it is. A descriptor is its pieces written in a row, and
it has only one such reading.
-/

namespace NameTables.Descriptor

/-- A character outside of references, or a reference to a class. -/
inductive Piece
  | plain (char : Char)
  | reference (name : List Char)
  deriving DecidableEq

/-- What stands behind the next `;` is shorter. -/
theorem length_behind_lt (rest : List Char)
    : ((rest.dropWhile (· ≠ ';')).drop 1).length < rest.length + 1 := by
  have := (List.dropWhile_sublist (fun x => decide (x ≠ ';')) (l := rest)).length_le
  rw [List.length_drop]
  omega

/-- The pieces of a descriptor, if every reference is closed. -/
def pieces? : List Char → Option (List Piece)
  | [] => some []
  | c :: rest =>
      if c = 'L' then
        if ';' ∈ rest then
          (pieces? ((rest.dropWhile (· ≠ ';')).drop 1)).map
            (.reference (rest.takeWhile (· ≠ ';')) :: ·)
        else none
      else (pieces? rest).map (.plain c :: ·)
termination_by chars => chars.length
decreasing_by
  · exact length_behind_lt rest
  · simp

def Piece.chars : Piece → List Char
  | .plain c => [c]
  | .reference name => 'L' :: name ++ [';']

def write (pieces : List Piece) : List Char := pieces.flatMap Piece.chars

/-- The piece reads back as itself. -/
def Piece.WellFormed : Piece → Prop
  | .plain c => c ≠ 'L'
  | .reference name => ';' ∉ name

/-- Renames the class of a reference. -/
def Piece.rename (newName : ClassName → ClassName) : Piece → Piece
  | .plain c => .plain c
  | .reference name => .reference (newName ⟨String.ofList name⟩).text.toList

/-- Tells the new name of a class, `none` if the class keeps its own, or why neither can be told. -/
abbrev Renamer := ClassName → Outcome (Option ClassName)

def Renamer.newName (renamer : Renamer) (name : ClassName) : Outcome ClassName := do
  return (← renamer name).getD name

/-- Renames the classes in the rest of `descriptor` from left to right, until one of them has no
answer or its reference stays open.
-/
def renameCharsBy (renamer : Renamer) (descriptor : Descriptor)
    : List Char → Outcome (List Char)
  | [] => .ok []
  | c :: rest =>
      if c = 'L' then
        if ';' ∈ rest then do
          let newName ← renamer.newName ⟨String.ofList (rest.takeWhile (· ≠ ';'))⟩
          let renamed ←
            renameCharsBy renamer descriptor ((rest.dropWhile (· ≠ ';')).drop 1)
          return 'L' :: newName.text.toList ++ ';' :: renamed
        else .error (.malformed 0 (.openReference descriptor))
      else do
        return c :: (← renameCharsBy renamer descriptor rest)
termination_by chars => chars.length
decreasing_by
  · exact length_behind_lt rest
  · simp

/-- Renames every class in a descriptor with a renamer that may fail. -/
def renameBy (renamer : Renamer) (descriptor : Descriptor) : Outcome Descriptor := do
  return ⟨String.ofList (← renameCharsBy renamer descriptor descriptor.text.toList)⟩

/-- Renames every class in a descriptor. -/
def rename (newName : ClassName → ClassName) (descriptor : Descriptor) : Outcome Descriptor :=
  match pieces? descriptor.text.toList with
  | some pieces => .ok ⟨String.ofList (write (pieces.map (Piece.rename newName)))⟩
  | none => .error (.malformed 0 (.openReference descriptor))

theorem takeWhile_append_drop_dropWhile {chars : List Char} (h : ';' ∈ chars)
    : chars.takeWhile (· ≠ ';') ++ ';' :: (chars.dropWhile (· ≠ ';')).drop 1 = chars := by
  induction chars with
  | nil => simp at h
  | cons c rest ih =>
    by_cases semicolon : c = ';'
    · simp [semicolon]
    · have further : ';' ∈ rest := by
        rcases List.mem_cons.mp h with same | further
        · exact absurd same.symm semicolon
        · exact further
      simpa [semicolon] using ih further

/-- Nothing of a descriptor is lost in its pieces. -/
theorem write_of_pieces? {chars : List Char} {pieces : List Piece}
    (h : pieces? chars = some pieces)
    : write pieces = chars := by
  fun_induction pieces? chars generalizing pieces with
  | case1 =>
    obtain rfl := Option.some.inj h
    rfl
  | case2 rest closed ih =>
    obtain ⟨pieces, found, rfl⟩ := Option.map_eq_some_iff.mp h
    have := takeWhile_append_drop_dropWhile closed
    simp only [write, List.flatMap_cons, Piece.chars] at *
    rw [ih found]
    simpa using this
  | case3 => simp at h
  | case4 c rest _ ih =>
    obtain ⟨pieces, found, rfl⟩ := Option.map_eq_some_iff.mp h
    simp only [write, List.flatMap_cons, Piece.chars] at *
    rw [ih found]
    rfl

/-- The pieces of a descriptor are well formed. -/
theorem wellFormed_of_pieces? {chars : List Char} {pieces : List Piece}
    (h : pieces? chars = some pieces)
    : ∀ piece ∈ pieces, piece.WellFormed := by
  fun_induction pieces? chars generalizing pieces with
  | case1 =>
    obtain rfl := Option.some.inj h
    simp
  | case2 rest closed ih =>
    obtain ⟨pieces, found, rfl⟩ := Option.map_eq_some_iff.mp h
    intro piece member
    rcases List.mem_cons.mp member with rfl | member
    · intro semicolon
      have := List.all_takeWhile (l := rest) (p := (· ≠ ';'))
      rw [List.all_eq_true] at this
      simpa using this _ semicolon
    · exact ih found piece member
  | case3 => simp at h
  | case4 c rest plain ih =>
    obtain ⟨pieces, found, rfl⟩ := Option.map_eq_some_iff.mp h
    intro piece member
    rcases List.mem_cons.mp member with rfl | member
    · exact plain
    · exact ih found piece member

/-- Well formed pieces are the only reading of what they write. -/
theorem pieces?_write {pieces : List Piece} (wellFormed : ∀ piece ∈ pieces, piece.WellFormed)
    : pieces? (write pieces) = some pieces := by
  induction pieces with
  | nil => simp [write, pieces?]
  | cons piece pieces ih =>
    have first := wellFormed piece List.mem_cons_self
    have rest := ih fun p member => wellFormed p (List.mem_cons_of_mem _ member)
    cases piece with
    | plain c =>
      change pieces? (c :: write pieces) = _
      rw [pieces?, if_neg first, rest]
      rfl
    | reference name =>
      have split : write (.reference name :: pieces) = 'L' :: (name ++ ';' :: write pieces) := by
        simp [write, Piece.chars]
      have notSemicolon : ∀ c ∈ name, decide (c ≠ ';') = true := by
        intro c member
        simp only [decide_eq_true_eq]
        rintro rfl
        exact first member
      rw [split, pieces?, if_pos rfl, if_pos (by simp)]
      rw [List.takeWhile_append_of_pos notSemicolon, List.dropWhile_append_of_pos notSemicolon]
      simp [rest]

end NameTables.Descriptor
