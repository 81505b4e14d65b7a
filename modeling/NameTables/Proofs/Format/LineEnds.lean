import Mathlib.Logic.Relation
import NameTables.Proofs.Flat.Permutation
import NameTables.Proofs.Format.Deletion

/-! Line ends and empty lines.
A line feed ends the same line with and without a carriage return, and the last line need not be
ended at all. In a flat file there may also be empty lines anywhere, since they are skipped.
-/

namespace NameTables

namespace Text

variable {α : Type} {lf cr : α} {xs xs' : List α}

/-- There is a last line that nothing ends. -/
def Unended (lf : α) (xs : List α) : Prop := ∃ last ∈ xs.getLast?, last ≠ lf

/-- (AddsEmptyLine lf xs xs') says that `xs'` has one empty line more, in front of a line or behind
the last one.
-/
inductive AddsEmptyLine (lf : α) : List α → List α → Prop
  | between {front back : List α} (ended : ∀ last ∈ front.getLast?, last = lf)
      : AddsEmptyLine lf (front ++ back) (front ++ lf :: back)
  | behind {xs : List α} (unended : Unended lf xs) : AddsEmptyLine lf xs (xs ++ [lf, lf])

theorem AddsEmptyLine.not_mem (other : lf ≠ cr) (added : AddsEmptyLine lf xs xs')
    (absent : cr ∉ xs)
    : cr ∉ xs' := by
  cases added with
  | between => simpa [other.symm] using absent
  | behind => simpa [other.symm] using absent

-----------------------------------------------------------------------------------------
-- Ends of lines
-----------------------------------------------------------------------------------------

variable [DecidableEq α]

/-- A carriage return in front of every line feed. -/
def addReturns (lf cr : α) (xs : List α) : List α :=
  xs.flatMap fun x => if x = lf then [cr, lf] else [x]

theorem addReturns_of_not_mem (cr : α) (absent : lf ∉ xs) : addReturns lf cr xs = xs := by
  have kept : ∀ x ∈ xs, (if x = lf then [cr, lf] else [x]) = [x] := by
    intro x member
    exact if_neg fun same : x = lf => absent (same ▸ member)
  rw [addReturns, List.flatMap_congr kept, List.flatMap_singleton']

/-- The pieces that are ended get a return each, by list induction. -/
theorem addReturns_flatMap (cr : α) {pieces : List (List α)} {last : List α}
    (absent : ∀ piece ∈ pieces, lf ∉ piece) (last_absent : lf ∉ last)
    : addReturns lf cr (pieces.flatMap (· ++ [lf]) ++ last)
      = (pieces.map (· ++ [cr])).flatMap (· ++ [lf]) ++ last := by
  induction pieces with
  | nil => exact addReturns_of_not_mem cr last_absent
  | cons piece pieces ih =>
      have first := addReturns_of_not_mem cr (absent piece List.mem_cons_self)
      have rest := ih fun piece member => absent piece (List.mem_cons_of_mem _ member)
      rw [addReturns] at first rest
      simp only [addReturns, List.flatMap_cons, List.flatMap_append, List.append_assoc, first,
        rest, List.map_cons]
      simp

theorem dropReturn_of_not_mem (absent : cr ∉ xs) : dropReturn cr xs = xs :=
  if_neg fun last => absent (List.mem_of_getLast? last)

/-- The return that a line got is dropped with its end. -/
theorem splitLines_addReturns (other : lf ≠ cr) (no_return : cr ∉ xs)
    : splitLines lf cr (addReturns lf cr xs) = splitLines lf cr xs := by
  obtain ⟨pieces, last, rfl, absent, last_absent⟩ := exists_pieces lf xs
  have absent' : ∀ piece ∈ pieces.map (· ++ [cr]), lf ∉ piece := by
    intro piece member
    obtain ⟨piece, listed, rfl⟩ := List.mem_map.mp member
    simpa [other] using absent piece listed
  have dropped : ∀ piece ∈ pieces, dropReturn cr (piece ++ [cr]) = dropReturn cr piece := by
    intro piece member
    have clean : cr ∉ piece := fun inside =>
      no_return (List.mem_append_left _ (List.mem_flatMap.mpr
        ⟨piece, member, List.mem_append_left _ inside⟩))
    rw [dropReturn_of_not_mem clean]
    simp [dropReturn]
  rw [addReturns_flatMap cr absent last_absent, splitLines_flatMap cr absent' last_absent,
    splitLines_flatMap cr absent last_absent, List.map_map]
  exact congrArg (· ++ _) (List.map_congr_left dropped)

/-- The last line is the same one when it is ended. -/
theorem splitLines_end (no_return : cr ∉ xs) (unended : Unended lf xs)
    : splitLines lf cr (xs ++ [lf]) = splitLines lf cr xs := by
  obtain ⟨pieces, last, rfl, absent, last_absent⟩ := exists_pieces lf xs
  have nonempty : last ≠ [] := by
    rintro rfl
    obtain ⟨ending, ends, other⟩ := unended
    rcases List.eq_nil_or_concat' pieces with rfl | ⟨pieces, piece, rfl⟩
    · simp at ends
    · have same : lf = ending := by simpa using ends
      exact other same.symm
  have clean : cr ∉ last := fun inside => no_return (List.mem_append_right _ inside)
  have all_absent : ∀ piece ∈ pieces ++ [last], lf ∉ piece := by
    intro piece member
    rcases List.mem_append.mp member with before | here
    · exact absent piece before
    · exact List.mem_singleton.mp here ▸ last_absent
  have whole := splitLines_flatMap cr all_absent List.not_mem_nil
  rw [List.flatMap_append, List.flatMap_singleton, List.append_nil, ← List.append_assoc] at whole
  rw [whole, splitLines_flatMap cr absent last_absent]
  simp [nonempty, dropReturn_of_not_mem clean]

-----------------------------------------------------------------------------------------
-- Empty lines
-----------------------------------------------------------------------------------------

theorem AddsEmptyLine.filter_splitLines (no_return : cr ∉ xs) (added : AddsEmptyLine lf xs xs')
    : (splitLines lf cr xs').filter (· ≠ []) = (splitLines lf cr xs).filter (· ≠ []) := by
  have empty (back : List α) : splitLines lf cr (lf :: back) = [] :: splitLines lf cr back := by
    have alone : ∀ last ∈ [lf].getLast?, last = lf := by simp
    have cut := splitLines_append cr alone back
    rwa [← List.nil_append [lf], splitLines_ended cr List.not_mem_nil] at cut
  cases added with
  | between ended =>
      rw [splitLines_append cr ended, splitLines_append cr ended, empty]
      simp
  | behind unended =>
      have ended : ∀ last ∈ (xs ++ [lf]).getLast?, last = lf := by simp
      rw [← List.singleton_append, ← List.append_assoc, splitLines_append cr ended, empty,
        splitLines_end no_return unended, splitLines_unended cr List.not_mem_nil]
      simp

/-- However many empty lines there are more, the other lines are the same ones. -/
theorem filter_splitLines_of_reflTransGen (other : lf ≠ cr) (no_return : cr ∉ xs)
    (added : Relation.ReflTransGen (AddsEmptyLine lf) xs xs')
    : (splitLines lf cr xs').filter (· ≠ []) = (splitLines lf cr xs).filter (· ≠ []) := by
  induction added using Relation.ReflTransGen.head_induction_on with
  | refl => rfl
  | head added _ ih => rw [ih (added.not_mem other no_return), added.filter_splitLines no_return]

theorem decode_eq_empty_iff {bytes : List UInt8} : decode bytes = some "" ↔ bytes = [] := by
  constructor
  · intro decoded
    exact (encode_of_decode decoded).symm
  · rintro rfl
    exact decode_encode []

end Text

-----------------------------------------------------------------------------------------
-- Files
-----------------------------------------------------------------------------------------

variable {n : Nat}

/-- Files with the same lines have the same table, or fail in the same way. -/
theorem Format.read_congr {format : Format} {content content' : ByteArray}
    (same
      : Text.splitLines 10 13 content'.data.toList = Text.splitLines 10 13 content.data.toList)
    : format.read n content' = format.read n content := by
  have lines_eq : Text.Line.ofContent content' = Text.Line.ofContent content := by
    rw [Text.Line.ofContent, Text.Line.ofContent, same]
  cases format <;> rw [read, read, lines_eq]

namespace Flat

theorem filledTexts_eq (content : ByteArray)
    : filledTexts content
      = ((Text.splitLines 10 13 content.data.toList).filter (· ≠ [])).map Text.decode := by
  have filled (bytes : List UInt8)
      : decide (Text.decode bytes ≠ some "") = decide (bytes ≠ []) := by
    simp [Text.decode_eq_empty_iff]
  have texts := Text.Line.map_text_ofContent content
  have kept := congrArg (List.filter fun text => decide (text ≠ some "")) texts
  rw [List.filter_map, List.filter_map] at kept
  simp only [Function.comp_def, filled] at kept
  exact kept

/-- Lines that declare something are decoded. -/
theorem Listed.exists_texts {lines : List Text.Line} {declarations : List (Declaration n)}
    (listed : Listed lines declarations)
    : ∃ texts : List String, lines.map Text.Line.text = texts.map some := by
  induction listed with
  | nil => exact ⟨[], rfl⟩
  | cons first _ ih =>
      obtain ⟨record, decoded, _⟩ := first
      obtain ⟨text, is_text, _⟩ := Text.Line.record_eq_ok_iff.mp decoded
      obtain ⟨texts, rest⟩ := ih
      exact ⟨text :: texts, by rw [List.map_cons, List.map_cons, is_text, rest]⟩

/-- A file that is read has a header, and all its lines are decoded. -/
theorem exists_filledTexts_of_read {content : ByteArray} {table : Table n}
    (accepted : Format.flat.read n content = .ok table)
    : ∃ header records, filledTexts content = (header :: records).map some := by
  have whole : Format.flat.read n content = read n (Text.Line.ofContent content) := rfl
  rw [whole, read_eq_ok_iff] at accepted
  obtain ⟨_, first, rest, _, _, _, filled, decoded, _, listed, _⟩ := accepted
  obtain ⟨header, is_header, _⟩ := Text.Line.record_eq_ok_iff.mp decoded
  obtain ⟨records, texts⟩ := Listed.exists_texts listed
  refine ⟨header, records, ?_⟩
  rw [filledTexts, filled, List.map_cons, List.map_cons, is_header, texts]

/-- Empty lines and the numbers of lines do not matter to what is read. -/
theorem read_of_filledTexts_eq {content content' : ByteArray}
    (same : filledTexts content' = filledTexts content) {table : Table n}
    (accepted : Format.flat.read n content = .ok table)
    : Format.flat.read n content' = .ok table := by
  obtain ⟨header, records, lines⟩ := exists_filledTexts_of_read accepted
  rw [read_eq_ok_iff_of_filledTexts (same.trans lines)]
  exact (read_eq_ok_iff_of_filledTexts lines).mp accepted

end Flat

namespace Format

/-- In a file without carriage returns, these can be put in front of all line feeds, and the last
line can be ended or not, with the same table or the same failure. In a flat file, empty lines
change nothing but the numbers of the lines that failures tell.
-/
theorem read_lineEnds {content : ByteArray} (no_return : 13 ∉ content.data.toList)
    : (∀ (format : Format) (n : Nat) {content' : ByteArray},
        content'.data.toList = Text.addReturns 10 13 content.data.toList →
        format.read n content' = format.read n content)
      ∧ (∀ (format : Format) (n : Nat) {content' : ByteArray},
          Text.Unended 10 content.data.toList →
          content'.data.toList = content.data.toList ++ [10] →
          format.read n content' = format.read n content)
      ∧ ∀ (n : Nat) {content' : ByteArray} (table : Table n),
          Relation.ReflTransGen (Text.AddsEmptyLine 10) content.data.toList content'.data.toList →
          (Format.flat.read n content' = .ok table ↔ Format.flat.read n content = .ok table) := by
  refine ⟨fun format n content' bytes => ?_, fun format n content' unended bytes => ?_,
    fun n content' table added => ?_⟩
  · apply read_congr
    rw [bytes, Text.splitLines_addReturns (by decide) no_return]
  · apply read_congr
    rw [bytes, Text.splitLines_end no_return unended]
  · have same : Flat.filledTexts content' = Flat.filledTexts content := by
      rw [Flat.filledTexts_eq, Flat.filledTexts_eq,
        Text.filter_splitLines_of_reflTransGen (by decide) no_return added]
    exact ⟨Flat.read_of_filledTexts_eq same.symm, Flat.read_of_filledTexts_eq same⟩

/-- A header and the line of a class, and what stands around them. -/
def spacedClass (front between behind : String) : ByteArray :=
  (front ++ "v1\tofficial\tnamed" ++ between ++ "CLASS\tä\tNode" ++ behind).toUTF8

/-- Read as a nested file, it fails in the same way whatever the line ends. -/
theorem read_lineEnds_spacedClass
    : ∃ (table : Table 2) (failure : Failure),
        table.names? (.cls ⟨"ä"⟩) = some (.pair (some ⟨"ä"⟩) (some ⟨"Node"⟩))
        ∧ flat.read 2 (spacedClass "" "\n" "") = .ok table
        ∧ flat.read 2 (spacedClass "" "\r\n" "") = .ok table
        ∧ flat.read 2 (spacedClass "" "\n" "\n") = .ok table
        ∧ flat.read 2 (spacedClass "\n" "\n\n" "\n\n") = .ok table
        ∧ nested.read 2 (spacedClass "" "\n" "") = .error failure
        ∧ nested.read 2 (spacedClass "" "\r\n" "") = .error failure
        ∧ nested.read 2 (spacedClass "" "\n" "\n") = .error failure := by
  have no_return : 13 ∉ (spacedClass "" "\n" "").data.toList := by decide +kernel
  have unended : Text.Unended 10 (spacedClass "" "\n" "").data.toList :=
    ⟨101, by decide +kernel, by decide⟩
  have returned : (spacedClass "" "\r\n" "").data.toList
      = Text.addReturns 10 13 (spacedClass "" "\n" "").data.toList := by
    decide +kernel
  have ended : (spacedClass "" "\n" "\n").data.toList
      = (spacedClass "" "\n" "").data.toList ++ [10] := by
    decide +kernel
  have lines : (spacedClass "" "\n" "").data.toList
      = "v1\tofficial\tnamed\n".toUTF8.data.toList ++ "CLASS\tä\tNode".toUTF8.data.toList := by
    decide +kernel
  have spaced : (spacedClass "\n" "\n\n" "\n\n").data.toList
      = 10 :: ("v1\tofficial\tnamed\n".toUTF8.data.toList
          ++ 10 :: ("CLASS\tä\tNode".toUTF8.data.toList ++ [10, 10])) := by
    decide +kernel
  have added : Relation.ReflTransGen (Text.AddsEmptyLine 10)
      (spacedClass "" "\n" "").data.toList
      (spacedClass "\n" "\n\n" "\n\n").data.toList := by
    have behind := Text.AddsEmptyLine.behind unended
    rw [lines, List.append_assoc] at behind
    rw [spaced, lines]
    exact ((Relation.ReflTransGen.single behind).tail (.between (by decide +kernel))).tail
      (@Text.AddsEmptyLine.between _ _ [] _ (by simp))
  have accepted : flat.read 2 (spacedClass "" "\n" "")
      = .ok ((Table.empty ⟨#v["official", "named"]⟩).declareAll
          [⟨.cls ⟨"ä"⟩, .pair (some ⟨"ä"⟩) (some ⟨"Node"⟩)⟩]) := by
    decide +kernel
  obtain ⟨return_eq, end_eq, spaced_iff⟩ := read_lineEnds no_return
  obtain ⟨failure, failed⟩ : ∃ failure, nested.read 2 (spacedClass "" "\n" "") = .error failure :=
    ⟨_, rfl⟩
  refine ⟨_, failure, ?_, accepted, ?_, ?_, (spaced_iff 2 _ added).mpr accepted, failed, ?_, ?_⟩
  · decide
  · exact (return_eq .flat 2 returned).trans accepted
  · exact (end_eq .flat 2 unended ended).trans accepted
  · exact (return_eq .nested 2 returned).trans failed
  · exact (end_eq .nested 2 unended ended).trans failed

end Format

end NameTables
