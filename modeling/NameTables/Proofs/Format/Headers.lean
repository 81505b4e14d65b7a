import Mathlib.Data.List.DropRight
import NameTables.Proofs.Format.FirstFault

/-! How many labels a header has.
The labels can be counted in the text of the header, since the line ends that are trimmed hold no
tab. A reader takes as many labels, unless it finds the header elsewhere than at the front of the
file.
-/

namespace NameTables

/-- Each separator makes one more piece, by list induction. -/
theorem Text.length_splitOn {α : Type} [DecidableEq α] (sep : α) (xs : List α)
    : (xs.splitOn sep).length = xs.count sep + 1 := by
  induction xs with
  | nil => simp
  | cons x xs ih =>
      rw [List.splitOn_cons_eq_if_modifyHead]
      by_cases same : x = sep
      · simp [same, ih]
      · simp [same, ih]

/-- What comes before the last pieces is ended by separators, by list induction. -/
theorem Text.intercalate_append {α : Type} (sep : α) (front : List (List α))
    {pieces : List (List α)} (nonempty : pieces ≠ [])
    : [sep].intercalate (front ++ pieces)
      = front.flatMap (· ++ [sep]) ++ [sep].intercalate pieces := by
  induction front with
  | nil => rfl
  | cons piece front ih =>
      obtain ⟨next, rest, more⟩ :=
        List.exists_cons_of_ne_nil (List.append_ne_nil_of_right_ne_nil front nonempty)
      rw [more] at ih
      rw [List.cons_append, more, List.intercalate_cons_cons, ih]
      simp only [List.flatMap_cons, List.append_assoc]

namespace Format

-----------------------------------------------------------------------------------------
-- Counting in a text
-----------------------------------------------------------------------------------------

theorem exists_trimmed (text : List Char)
    : ∃ ends, trimLineEnd text ++ ends = text ∧ '\t' ∉ ends := by
  refine ⟨text.rtakeWhile fun c => c = '\r' || c = '\n', List.rdropWhile_append_rtakeWhile, ?_⟩
  intro tab
  simpa using List.mem_rtakeWhile_imp tab

theorem count_trimLineEnd (text : List Char) : (trimLineEnd text).count '\t' = text.count '\t' := by
  obtain ⟨ends, whole, no_tab⟩ := exists_trimmed text
  have counted := congrArg (List.count '\t') whole
  rwa [List.count_append, List.count_eq_zero.mpr no_tab] at counted

/-- What a header begins with is not trimmed, since it ends in a tab. -/
theorem trimLineEnd_opening (format : Format) (labels : List Char)
    : trimLineEnd (format.opening ++ labels) = format.opening ++ trimLineEnd labels := by
  have kept : format.opening.reverse.dropWhile (fun c => c = '\r' || c = '\n')
      = format.opening.reverse := by
    cases format <;> decide
  rw [trimLineEnd, trimLineEnd, List.reverse_append, List.dropWhile_append, kept]
  split
  · next empty => simp [List.isEmpty_iff.mp empty]
  · simp

/-- The tabs behind the opening part the labels. -/
theorem countLabels_eq_ok_iff {format : Format} {header : String} {count : Nat}
    : format.countLabels header = .ok count
      ↔ ∃ labels, header.toList = format.opening ++ labels ∧ labels.count '\t' + 1 = count := by
  unfold countLabels
  constructor
  · intro counted
    dsimp only at counted
    split at counted
    · next labels begins =>
      have trimmed := List.isPrefixOf?_eq_some_iff_append_eq.mp begins
      obtain ⟨ends, whole, no_tab⟩ := exists_trimmed header.toList
      refine ⟨labels ++ ends, ?_, ?_⟩
      · rw [← List.append_assoc, trimmed, whole]
      · rw [List.count_append, List.count_eq_zero.mpr no_tab, Nat.add_zero, ← Text.length_splitOn]
        exact Except.ok.inj counted
    · cases counted
  · intro given
    rcases given with ⟨labels, begins, rfl⟩
    have trimmed : format.opening.isPrefixOf? (trimLineEnd header.toList)
        = some (trimLineEnd labels) :=
      List.isPrefixOf?_eq_some_iff_append_eq.mpr (begins ▸ (trimLineEnd_opening format labels).symm)
    simp only [trimmed, Text.length_splitOn, count_trimLineEnd]

/-- The words before the labels. -/
def words : Format → List String
  | .flat => ["v1"]
  | .nested => ["tiny", "2", "0"]

theorem opening_eq_words (format : Format)
    : format.opening = (format.words.map String.toList).flatMap (· ++ ['\t']) := by
  cases format <;> decide

/-- The labels in the row of a header are counted if it is not indented. -/
theorem countLabels_render {n : Nat} {format : Format} {row : Row} {labels : Labels n}
    (positive : 0 < n) (cells : row.tag :: row.fields = format.words ++ labels.toList)
    (no_tab : ∀ cell ∈ row.tag :: row.fields, '\t' ∉ cell.toList) (flush : row.depth = 0)
    : format.countLabels row.render = .ok n := by
  have pieces_length : (labels.toList.map String.toList).length = n := by simp [Labels.toList]
  have nonempty : labels.toList.map String.toList ≠ [] := List.ne_nil_of_length_pos (by omega)
  refine countLabels_eq_ok_iff.mpr ⟨['\t'].intercalate (labels.toList.map String.toList), ?_, ?_⟩
  · rw [Row.render, String.toList_ofList, Row.chars, flush, cells, List.map_append,
      Text.intercalate_append '\t' _ nonempty, opening_eq_words]
    rfl
  · have pieces : (['\t'].intercalate (labels.toList.map String.toList)).splitOn '\t'
        = labels.toList.map String.toList := by
      apply List.splitOn_intercalate
      · intro piece listed
        obtain ⟨label, member, rfl⟩ := List.mem_map.mp listed
        exact no_tab label (cells ▸ List.mem_append_right _ member)
      · exact nonempty
    rw [← Text.length_splitOn, pieces, pieces_length]

/-- What is counted does not begin with a tab, and there is something to count. -/
theorem head?_of_countLabels {format : Format} {header : String} {count : Nat}
    (counted : format.countLabels header = .ok count)
    : ∃ c, header.toList.head? = some c ∧ c ≠ '\t' := by
  obtain ⟨labels, begins, _⟩ := countLabels_eq_ok_iff.mp counted
  rw [begins]
  cases format with
  | flat => exact ⟨'v', rfl, by decide⟩
  | nested => exact ⟨'t', rfl, by decide⟩

-----------------------------------------------------------------------------------------
-- Counting and reading
-----------------------------------------------------------------------------------------

/-- A first line that is not counted although the file may have a header. Readers pass over tabs in
front of the header and, in the flat format, over empty lines.
-/
def HidesHeader (format : Format) (first : String) : Prop :=
  first.toList.head? = some '\t' ∨ format = .flat ∧ first = ""

instance (format : Format) (first : String) : Decidable (format.HidesHeader first) :=
  inferInstanceAs (Decidable (_ ∨ _))

variable {n : Nat} {format : Format} {text : String}

/-- A table is read from a file with a header of as many labels. -/
theorem exists_header {content : ByteArray} {table : Table n}
    (accepts : format.read n content = .ok table)
    : 2 ≤ n ∧ ∃ (line : Text.Line) (record : Record) (labels : Labels n),
        format.headerLine? (Text.Line.ofContent content) = some line
        ∧ line.record = .ok record
        ∧ record.tag :: record.fields = format.words ++ labels.toList := by
  cases format with
  | flat =>
      obtain ⟨enough, line, rest, record, labels, _, filled, decoded, headed, _⟩ :=
        Flat.read_eq_ok_iff.mp accepts
      obtain ⟨tag, fields, _⟩ := Flat.headerLabels_eq_ok_iff.mp headed
      refine ⟨enough, line, record, labels, ?_, decoded, ?_⟩
      · rw [headerLine?, ← List.head?_filter, filled]
        rfl
      · rw [tag, fields]
        rfl
  | nested =>
      obtain ⟨enough, line, rest, record, labels, _, filled, decoded, headed, _⟩ :=
        Nested.read_eq_ok_iff.mp accepts
      obtain ⟨tag, fields, _⟩ := Nested.headerLabels_eq_ok_iff.mp headed
      refine ⟨enough, line, record, labels, ?_, decoded, ?_⟩
      · rw [headerLine?, filled]
        rfl
      · rw [tag, fields]
        rfl

/-- The line with the header is the first line of the text unless that one is skipped. -/
theorem text_headerLine? {line : Text.Line}
    (first : format.headerLine? (Text.Line.ofContent text.toUTF8) = some line)
    (shown : ¬format.HidesHeader (Text.firstLine text))
    : line.text = some (Text.firstLine text) := by
  rw [Text.Line.ofContent_toUTF8] at first
  rw [Text.firstLine] at shown ⊢
  cases lines : Text.splitLines '\n' '\r' text.toList with
  | nil =>
      rw [lines] at first
      cases format <;> cases first
  | cons chars rest =>
      rw [lines] at first shown
      cases format with
      | flat =>
          have kept : String.ofList chars ≠ "" := fun empty => shown (Or.inr ⟨rfl, empty⟩)
          rw [List.zipIdx_cons, List.map_cons, headerLine?,
            List.find?_cons_of_pos (by simpa using kept)] at first
          obtain rfl := Option.some.inj first
          rfl
      | nested =>
          obtain rfl := Option.some.inj first
          rfl

/-- Whatever is read has as many namespaces as are counted, if the first line shows the header. -/
theorem countLabels_of_read {table : Table n} (accepts : format.read n text.toUTF8 = .ok table)
    (shown : ¬format.HidesHeader (Text.firstLine text))
    : format.countLabels (Text.firstLine text) = .ok n := by
  obtain ⟨enough, line, record, labels, first, decoded, cells⟩ := exists_header accepts
  obtain ⟨line_text, here, rfl⟩ := Text.Line.record_eq_ok_iff.mp decoded
  obtain rfl : line_text = Text.firstLine text :=
    Option.some.inj (here.symm.trans (text_headerLine? first shown))
  have depth_eq : (Row.parse (Text.firstLine text)).depth = 0 := by
    cases chars : (Text.firstLine text).toList with
    | nil => simp [Row.parse, chars]
    | cons c rest =>
        have other : c ≠ '\t' := by
          rintro rfl
          exact shown (Or.inl (by rw [chars]; rfl))
        simp [Row.parse, chars, other]
  have counted :=
    countLabels_render (Nat.zero_lt_of_lt enough) cells (Row.no_tab_parse _) depth_eq
  rwa [Row.render_parse] at counted

theorem HidesHeader.countLabels_fails {first : String} (hides : format.HidesHeader first)
    : ∃ failure, format.countLabels first = .error failure := by
  cases counted : format.countLabels first with
  | error failure => exact ⟨failure, rfl⟩
  | ok count =>
      obtain ⟨c, begins, no_tab⟩ := head?_of_countLabels counted
      rcases hides with tab | ⟨_, rfl⟩
      · exact absurd (Option.some.inj (begins.symm.trans tab)) no_tab
      · cases begins

/-- No other number of namespaces can be read. -/
theorem read_fails_of_countLabels {count : Nat}
    (counted : format.countLabels (Text.firstLine text) = .ok count) (other : n ≠ count)
    : ∃ failure, format.read n text.toUTF8 = .error failure := by
  cases accepts : format.read n text.toUTF8 with
  | error failure => exact ⟨failure, rfl⟩
  | ok table =>
      have shown : ¬format.HidesHeader (Text.firstLine text) := by
        intro hides
        obtain ⟨_, failed⟩ := hides.countLabels_fails
        cases counted.symm.trans failed
      have same := counted.symm.trans (countLabels_of_read accepts shown)
      exact absurd (Except.ok.inj same).symm other

end Format

end NameTables
