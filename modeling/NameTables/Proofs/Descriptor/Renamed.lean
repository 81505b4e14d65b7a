import Mathlib.Data.List.Basic
import NameTables.Descriptor

/-! Descriptors with their classes renamed.
Renaming fails only at a descriptor with a reference that is not closed, which a renamed descriptor
never has. What it returns is told by the new names of the classes that the descriptor refers to.
-/

namespace NameTables.Descriptor

/-- The descriptor with every class in it renamed. -/
def renamed (newName : ClassName → ClassName) (descriptor : Descriptor) : Descriptor :=
  match pieces? descriptor.text.toList with
  | some pieces => ⟨String.ofList (write (pieces.map (Piece.rename newName)))⟩
  | none => descriptor

theorem renamed_of_pieces? {newName : ClassName → ClassName} {descriptor : Descriptor}
    {pieces : List Piece} (found : pieces? descriptor.text.toList = some pieces)
    : descriptor.renamed newName
      = ⟨String.ofList (write (pieces.map (Piece.rename newName)))⟩ := by
  rw [renamed, found]

/-- Every reference ends with a semicolon. -/
def Closed (descriptor : Descriptor) : Prop :=
  (pieces? descriptor.text.toList).isSome = true

instance (descriptor : Descriptor) : Decidable descriptor.Closed :=
  inferInstanceAs (Decidable (_ = _))

theorem rename_eq_ok_iff {newName : ClassName → ClassName} {descriptor descriptor' : Descriptor}
    : descriptor.rename newName = .ok descriptor'
      ↔ descriptor.Closed ∧ descriptor' = descriptor.renamed newName := by
  unfold rename Closed renamed
  cases pieces? descriptor.text.toList with
  | none => simp
  | some pieces => simp [eq_comm]

/-- A piece is scanned as a whole, whatever follows it. -/
theorem pieces?_chars_append {piece : Piece} (well_formed : piece.WellFormed) (rest : List Char)
    : pieces? (piece.chars ++ rest) = (pieces? rest).map (piece :: ·) := by
  cases piece with
  | plain c =>
      rw [Piece.chars, List.singleton_append, pieces?, if_neg well_formed]
  | reference name =>
      have inside : ∀ c ∈ name, decide (c ≠ ';') = true := by
        intro c member
        rw [decide_eq_true_eq]
        rintro rfl
        exact well_formed member
      have split : (Piece.reference name).chars ++ rest = 'L' :: (name ++ ';' :: rest) := by
        simp [Piece.chars]
      rw [split, pieces?, if_pos rfl, if_pos (by simp), List.takeWhile_append_of_pos inside,
        List.dropWhile_append_of_pos inside]
      simp

/-- Scanning goes on behind pieces as it began before them, by list induction. -/
theorem pieces?_write_append {scanned : List Piece} (rest : List Char)
    (well_formed : ∀ piece ∈ scanned, piece.WellFormed)
    : pieces? (write scanned ++ rest) = (pieces? rest).map (scanned ++ ·) := by
  induction scanned with
  | nil => simp [write]
  | cons piece scanned ih =>
      obtain ⟨first, others⟩ := List.forall_mem_cons.mp well_formed
      have split : write (piece :: scanned) ++ rest = piece.chars ++ (write scanned ++ rest) := by
        simp [write]
      rw [split, pieces?_chars_append first, ih others, Option.map_map]
      rfl

theorem pieces?_isSome_append {chars more : List Char} (closed : (pieces? chars).isSome = true)
    (closed_more : (pieces? more).isSome = true)
    : (pieces? (chars ++ more)).isSome = true := by
  obtain ⟨pieces, found⟩ := Option.isSome_iff_exists.mp closed
  rw [← write_of_pieces? found, pieces?_write_append more (wellFormed_of_pieces? found),
    Option.isSome_map]
  exact closed_more

/-- A semicolon at the end closes whatever is open, by induction on the pieces. -/
theorem pieces?_isSome_of_getLast? {chars : List Char} (last : chars.getLast? = some ';')
    : (pieces? chars).isSome = true := by
  fun_induction pieces? chars with
  | case1 => simp at last
  | case2 rest closed ih =>
      rw [Option.isSome_map]
      have split := takeWhile_append_drop_dropWhile closed
      cases left : (rest.dropWhile (· ≠ ';')).drop 1 with
      | nil => simp [pieces?]
      | cons c after =>
          rw [← left]
          apply ih
          rw [← split, left, ← List.cons_append, List.append_cons, List.getLast?_append_cons]
            at last
          rw [left]
          exact last
  | case3 rest unclosed =>
      cases rest with
      | nil => simp at last
      | cons c after =>
          rw [List.getLast?_cons_cons] at last
          exact absurd (List.mem_of_getLast? last) unclosed
  | case4 c rest plain ih =>
      rw [Option.isSome_map]
      cases rest with
      | nil => simp [pieces?]
      | cons next after =>
          rw [List.getLast?_cons_cons] at last
          exact ih last

/-- New names may hold anything, and still every reference is closed. -/
theorem Closed.renamed {descriptor : Descriptor} (closed : descriptor.Closed)
    (newName : ClassName → ClassName)
    : (descriptor.renamed newName).Closed := by
  obtain ⟨pieces, found⟩ := Option.isSome_iff_exists.mp closed
  have well_formed := wellFormed_of_pieces? found
  rw [Closed, Descriptor.renamed, found, String.toList_ofList]
  clear found
  induction pieces with
  | nil => simp [write, pieces?]
  | cons piece pieces ih =>
      have split : write ((piece :: pieces).map (Piece.rename newName))
          = (piece.rename newName).chars ++ write (pieces.map (Piece.rename newName)) := by
        simp [write]
      rw [split]
      refine pieces?_isSome_append ?_ (ih fun piece member =>
        well_formed piece (List.mem_cons_of_mem _ member))
      cases piece with
      | plain c =>
          have plain : c ≠ 'L' := well_formed _ List.mem_cons_self
          simp [Piece.rename, Piece.chars, pieces?, plain]
      | reference name =>
          apply pieces?_isSome_of_getLast?
          exact List.getLast?_concat

/-- Nothing changes when every class keeps its name. -/
theorem renamed_of_forall_eq {newName : ClassName → ClassName} (same : ∀ name, newName name = name)
    (descriptor : Descriptor)
    : descriptor.renamed newName = descriptor := by
  cases found : pieces? descriptor.text.toList with
  | none => rw [renamed, found]
  | some pieces =>
      have kept : pieces.map (Piece.rename newName) = pieces.map id := by
        apply List.map_congr_left
        intro piece _
        cases piece <;> simp [Piece.rename, same]
      have text_eq := write_of_pieces? found
      cases descriptor
      simp only [renamed, found, kept, List.map_id, text_eq, String.ofList_toList]

-----------------------------------------------------------------------------------------
-- References that stay open
-----------------------------------------------------------------------------------------

/-- The scan from left to right meets an `L` that no `;` comes after. -/
def Open (descriptor : Descriptor) : Prop :=
  ∃ scanned rest,
    descriptor.text.toList = write scanned ++ 'L' :: rest
    ∧ (∀ piece ∈ scanned, piece.WellFormed)
    ∧ ';' ∉ rest

/-- The scan stops nowhere else, by induction along it. -/
theorem exists_open_of_pieces?_eq_none {chars : List Char} (stops : pieces? chars = none)
    : ∃ scanned rest,
        chars = write scanned ++ 'L' :: rest
        ∧ (∀ piece ∈ scanned, piece.WellFormed)
        ∧ ';' ∉ rest := by
  fun_induction pieces? chars with
  | case1 => cases stops
  | case2 rest closed ih =>
      obtain ⟨scanned, unscanned, same, well_formed, unclosed⟩ :=
        ih (Option.map_eq_none_iff.mp stops)
      refine ⟨.reference (rest.takeWhile (· ≠ ';')) :: scanned, unscanned, ?_, ?_, unclosed⟩
      · have whole := takeWhile_append_drop_dropWhile closed
        rw [same] at whole
        simp only [write, List.flatMap_cons, Piece.chars, List.cons_append, List.append_assoc,
          List.cons.injEq, true_and]
        exact whole.symm
      · intro piece member
        rcases List.mem_cons.mp member with rfl | member
        · intro semicolon
          have before := List.all_eq_true.mp (List.all_takeWhile (l := rest) (p := (· ≠ ';')))
          simpa using before _ semicolon
        · exact well_formed piece member
  | case3 rest unclosed => exact ⟨[], rest, rfl, by simp, unclosed⟩
  | case4 c rest plain ih =>
      obtain ⟨scanned, unscanned, rfl, well_formed, unclosed⟩ :=
        ih (Option.map_eq_none_iff.mp stops)
      refine ⟨.plain c :: scanned, unscanned, rfl, ?_, unclosed⟩
      intro piece member
      rcases List.mem_cons.mp member with rfl | member
      · exact plain
      · exact well_formed piece member

/-- A descriptor is open exactly if it cannot be renamed. -/
theorem open_iff_not_closed {descriptor : Descriptor} : descriptor.Open ↔ ¬descriptor.Closed := by
  rw [Closed, Bool.not_eq_true, Option.isSome_eq_false_iff, Option.isNone_iff_eq_none]
  constructor
  · intro given
    rcases given with ⟨scanned, rest, same, well_formed, unclosed⟩
    rw [same, pieces?_write_append _ well_formed, pieces?, if_pos rfl, if_neg unclosed]
    rfl
  · exact exists_open_of_pieces?_eq_none

instance (descriptor : Descriptor) : Decidable descriptor.Open :=
  decidable_of_iff _ open_iff_not_closed.symm

theorem rename_eq_error_iff {newName : ClassName → ClassName} {descriptor : Descriptor}
    {failure : Failure}
    : descriptor.rename newName = .error failure
      ↔ descriptor.Open ∧ failure = .malformed 0 (.openReference descriptor) := by
  rw [open_iff_not_closed, Closed, rename]
  cases pieces? descriptor.text.toList with
  | none => simp [eq_comm]
  | some pieces => simp

-----------------------------------------------------------------------------------------
-- Classes that a descriptor refers to
-----------------------------------------------------------------------------------------

def Piece.reference? : Piece → Option ClassName
  | .plain _ => none
  | .reference name => some ⟨String.ofList name⟩

/-- The classes that a descriptor refers to, none if a reference is open. -/
def references (descriptor : Descriptor) : List ClassName :=
  ((pieces? descriptor.text.toList).getD []).filterMap Piece.reference?

variable {descriptor : Descriptor}

theorem mem_references {pieces : List Piece}
    (found : pieces? descriptor.text.toList = some pieces) {name : List Char}
    (listed : .reference name ∈ pieces)
    : ⟨String.ofList name⟩ ∈ descriptor.references := by
  rw [references, found, Option.getD_some]
  exact List.mem_filterMap.mpr ⟨.reference name, listed, rfl⟩

theorem not_mem_of_mem_references {name : ClassName} (listed : name ∈ descriptor.references)
    : ';' ∉ name.text.toList := by
  cases found : pieces? descriptor.text.toList with
  | none => simp [references, found] at listed
  | some pieces =>
      rw [references, found, Option.getD_some] at listed
      obtain ⟨piece, member, refers⟩ := List.mem_filterMap.mp listed
      have well_formed := wellFormed_of_pieces? found piece member
      cases piece with
      | plain c => simp [Piece.reference?] at refers
      | reference text =>
          obtain rfl := Option.some.inj refers
          simpa [Piece.WellFormed] using well_formed

/-- Only the new names of the classes in it tell the renamed descriptor. -/
theorem renamed_congr {newName newName' : ClassName → ClassName}
    (same : ∀ name ∈ descriptor.references, newName name = newName' name)
    : descriptor.renamed newName = descriptor.renamed newName' := by
  cases found : pieces? descriptor.text.toList with
  | none => rw [renamed, renamed, found]
  | some pieces =>
      have pieces_eq : pieces.map (Piece.rename newName) = pieces.map (Piece.rename newName') := by
        apply List.map_congr_left
        intro piece listed
        cases piece with
        | plain c => rfl
        | reference name => rw [Piece.rename, Piece.rename, same _ (mem_references found listed)]
      rw [renamed_of_pieces? found, renamed_of_pieces? found, pieces_eq]

/-- Renaming twice is renaming once, unless a semicolon cuts a new name. -/
theorem renamed_renamed {newName newName' : ClassName → ClassName}
    (uncut : ∀ name ∈ descriptor.references, ';' ∉ (newName name).text.toList)
    : (descriptor.renamed newName).renamed newName' = descriptor.renamed (newName' ∘ newName) := by
  cases found : pieces? descriptor.text.toList with
  | none => simp only [renamed, found]
  | some pieces =>
      have well_formed : ∀ piece ∈ pieces.map (Piece.rename newName), piece.WellFormed := by
        intro piece member
        obtain ⟨before, listed, rfl⟩ := List.mem_map.mp member
        cases before with
        | plain c => exact wellFormed_of_pieces? found _ listed
        | reference name => exact uncut _ (mem_references found listed)
      have reread : pieces? (descriptor.renamed newName).text.toList
          = some (pieces.map (Piece.rename newName)) := by
        rw [renamed_of_pieces? found, String.toList_ofList, pieces?_write well_formed]
      have twice_eq (piece : Piece)
          : (piece.rename newName).rename newName' = piece.rename (newName' ∘ newName) := by
        cases piece with
        | plain c => rfl
        | reference name => simp [Piece.rename]
      rw [renamed_of_pieces? reread, renamed_of_pieces? found, List.map_map, ← funext twice_eq]
      rfl

/-- With an open reference, renaming fails in the same way whatever the new names are. -/
theorem rename_of_not_closed (opened : ¬descriptor.Closed) (newName : ClassName → ClassName)
    : descriptor.rename newName = .error (.malformed 0 (.openReference descriptor)) :=
  rename_eq_error_iff.mpr ⟨open_iff_not_closed.mpr opened, rfl⟩

/-- A renamed descriptor has its own characters and those of new names. -/
theorem renamed_forall {good : Char → Prop} {newName : ClassName → ClassName}
    {descriptor : Descriptor} (own : ∀ c ∈ descriptor.text.toList, good c)
    (new : ∀ name, newName name = name ∨ ∀ c ∈ (newName name).text.toList, good c)
    : ∀ c ∈ (descriptor.renamed newName).text.toList, good c := by
  cases found : pieces? descriptor.text.toList with
  | none => rwa [renamed, found]
  | some pieces =>
      rw [renamed_of_pieces? found, String.toList_ofList]
      rw [← write_of_pieces? found] at own
      intro c member
      obtain ⟨_, renamed, inside⟩ := List.mem_flatMap.mp member
      obtain ⟨piece, listed, rfl⟩ := List.mem_map.mp renamed
      have kept {c : Char} (before : c ∈ piece.chars) : good c :=
        own c (List.mem_flatMap.mpr ⟨piece, listed, before⟩)
      cases piece with
      | plain => exact kept inside
      | reference name =>
          rcases new ⟨String.ofList name⟩ with same | renamed
          · rw [Piece.rename, same, String.toList_ofList] at inside
            exact kept inside
          · rcases List.mem_append.mp inside with front | semicolon
            · rcases List.mem_cons.mp front with rfl | named
              · exact kept (by simp [Piece.chars])
              · exact renamed c named
            · exact kept (List.mem_append_right _ semicolon)

end NameTables.Descriptor
