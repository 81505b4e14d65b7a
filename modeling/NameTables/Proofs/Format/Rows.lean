import NameTables.Format.Row
import NameTables.Text.Line

/-! Rows and their texts.
Every text is the rendering of the row that it is parsed into, so a row with a tag is parsed from
its rendering alone. Cells without tabs and line ends are told apart again in the lines of a file.
-/

namespace NameTables

/-- No piece holds the separator, by list induction. -/
theorem Text.not_mem_of_mem_splitOn {α : Type} [DecidableEq α] {sep : α} {xs piece : List α}
    (member : piece ∈ xs.splitOn sep)
    : sep ∉ piece := by
  induction xs generalizing piece with
  | nil =>
      rw [List.splitOn_nil, List.mem_singleton] at member
      simp [member]
  | cons x xs ih =>
      rw [List.splitOn_cons_eq_if_modifyHead] at member
      split at member
      · rcases List.mem_cons.mp member with rfl | later
        · simp
        · exact ih later
      · next other =>
        cases pieces : xs.splitOn sep with
        | nil => exact absurd pieces (List.splitOn_ne_nil sep xs)
        | cons first rest =>
            rw [pieces, List.modifyHead_cons] at member
            rcases List.mem_cons.mp member with rfl | later
            · have absent := ih (pieces ▸ List.mem_cons_self)
              simp only [List.mem_cons, not_or]
              exact ⟨fun same => other (by simp [same]), absent⟩
            · exact ih (pieces ▸ List.mem_cons_of_mem _ later)

namespace Row

/-- The cells of a text have no tabs. -/
theorem no_tab_parse (text : String)
    : ∀ cell ∈ (parse text).tag :: (parse text).fields, '\t' ∉ cell.toList := by
  have nonempty := List.splitOn_ne_nil '\t' (text.toList.dropWhile (· = '\t'))
  obtain ⟨first, rest, pieces⟩ := List.exists_cons_of_ne_nil nonempty
  have all : ∀ piece ∈ first :: rest, '\t' ∉ piece := fun piece member =>
    Text.not_mem_of_mem_splitOn (pieces ▸ member)
  intro cell member
  simp only [parse, pieces, List.headD_cons, List.tail_cons, List.mem_cons, List.mem_map] at member
  rcases member with rfl | ⟨piece, later, rfl⟩
  · simpa using all first List.mem_cons_self
  · simpa using all piece (List.mem_cons_of_mem _ later)

/-- Parsing loses nothing of a text. -/
theorem render_parse (text : String) : (parse text).render = text := by
  have nonempty := List.splitOn_ne_nil '\t' (text.toList.dropWhile (· = '\t'))
  obtain ⟨first, rest, pieces⟩ := List.exists_cons_of_ne_nil nonempty
  have tabs : List.replicate (text.toList.takeWhile (· = '\t')).length '\t'
      = text.toList.takeWhile (· = '\t') := by
    rw [eq_comm, List.eq_replicate_iff]
    refine ⟨rfl, fun c member => ?_⟩
    have allowed := List.all_eq_true.mp List.all_takeWhile c member
    simpa using allowed
  have cells : ['\t'].intercalate (first :: rest) = text.toList.dropWhile (· = '\t') := by
    rw [← pieces, List.intercalate_splitOn]
  rw [render, chars]
  simp only [parse, pieces, List.headD_cons, List.tail_cons, List.map_cons, List.map_map,
    String.toList_ofList, Function.comp_def, List.map_id']
  rw [tabs, cells, List.takeWhile_append_dropWhile, String.ofList_toList]

/-- A row with a tag is parsed exactly from its rendering. -/
theorem parse_eq_iff {text : String} {row : Row} (tag_ne : row.tag ≠ "")
    : parse text = row ↔ row.Writable ∧ text = row.render := by
  constructor
  · rintro rfl
    exact ⟨⟨tag_ne, no_tab_parse text⟩, (render_parse text).symm⟩
  · intro given
    rcases given with ⟨writable, rfl⟩
    exact parse_render writable

end Row

/-- Neither a tab nor a part of a line end stands in the text. -/
def Text.IsPlain (text : String) : Prop :=
  ∀ c ∈ text.toList, c ≠ '\t' ∧ c ≠ '\n' ∧ c ≠ '\r'

instance (text : String) : Decidable (Text.IsPlain text) :=
  List.decidableBAll (fun c => c ≠ '\t' ∧ c ≠ '\n' ∧ c ≠ '\r') text.toList

/-- The row has a tag and plain cells. -/
structure Row.IsPlain (row : Row) : Prop where
  tag_ne : row.tag ≠ ""
  plain : ∀ cell ∈ row.tag :: row.fields, Text.IsPlain cell

namespace Row

theorem IsPlain.writable {row : Row} (plain : row.IsPlain) : row.Writable where
  tag_ne := plain.tag_ne
  no_tab cell member tab := (plain.plain cell member '\t' tab).1 rfl

/-- What stands between separators comes from the pieces, by list induction. -/
theorem mem_intercalate {α : Type} {sep c : α} {pieces : List (List α)}
    (member : c ∈ [sep].intercalate pieces)
    : c = sep ∨ ∃ piece ∈ pieces, c ∈ piece := by
  induction pieces with
  | nil => simp [List.intercalate_nil] at member
  | cons piece pieces ih =>
      cases pieces with
      | nil =>
          rw [List.intercalate_singleton] at member
          exact Or.inr ⟨piece, List.mem_cons_self, member⟩
      | cons next pieces =>
          rw [List.intercalate_cons_cons, List.mem_append, List.mem_append,
            List.mem_singleton] at member
          rcases member with (here | rfl) | later
          · exact Or.inr ⟨piece, List.mem_cons_self, here⟩
          · exact Or.inl rfl
          · rcases ih later with same | ⟨other, listed, inside⟩
            · exact Or.inl same
            · exact Or.inr ⟨other, List.mem_cons_of_mem _ listed, inside⟩

theorem IsPlain.not_line_end {row : Row} (plain : row.IsPlain) {c : Char} (member : c ∈ row.chars)
    : c ≠ '\n' ∧ c ≠ '\r' := by
  rw [chars, List.mem_append, List.mem_replicate] at member
  rcases member with ⟨_, rfl⟩ | cells
  · decide
  · rcases mem_intercalate cells with rfl | ⟨piece, listed, inside⟩
    · decide
    · obtain ⟨cell, among, rfl⟩ := List.mem_map.mp listed
      exact (plain.plain cell among c inside).2

theorem IsPlain.not_line_feed {row : Row} (plain : row.IsPlain) : '\n' ∉ row.chars :=
  fun member => (plain.not_line_end member).1 rfl

/-- Rows are cut apart at the line feeds behind them, by induction on the rows. -/
theorem splitOn_chars {rows : List Row} (absent : ∀ row ∈ rows, '\n' ∉ row.chars)
    : (rows.flatMap fun row => row.chars ++ ['\n']).splitOn '\n'
      = rows.map chars ++ [[]] := by
  induction rows with
  | nil => simp
  | cons row rows ih =>
      rw [List.flatMap_cons, List.append_assoc,
        Text.splitOn_append_of_not_mem (absent row List.mem_cons_self), List.singleton_append,
        List.splitOn_cons_eq_if_modifyHead, if_pos (by simp),
        ih fun row member => absent row (List.mem_cons_of_mem _ member)]
      simp

/-- Each line loses a carriage return at its end. -/
theorem splitLines_chars {rows : List Row} (absent : ∀ row ∈ rows, '\n' ∉ row.chars)
    : Text.splitLines '\n' '\r' (renderAll rows).toList
      = rows.map fun row => Text.dropReturn '\r' row.chars := by
  rw [renderAll, String.toList_ofList, Text.splitLines, splitOn_chars absent]
  simp [Function.comp_def]

/-- The lines that spell rows, counted from one. -/
def lines (rows : List Row) : List Text.Line :=
  (rows.zipIdx 1).map fun (row, number) => ⟨number, some row.render⟩

/-- The lines of a file of rows are those of other rows, if these are what the line ends leave. -/
theorem ofContent_renderAll_eq_lines {rows : List Row} (left : Row → Row)
    (absent : ∀ row ∈ rows, '\n' ∉ row.chars)
    (leaves : ∀ row ∈ rows, Text.dropReturn '\r' row.chars = (left row).chars)
    : Text.Line.ofContent (renderAll rows).toUTF8 = lines (rows.map left) := by
  rw [Text.Line.ofContent_toUTF8, splitLines_chars absent, List.map_congr_left leaves, lines,
    List.zipIdx_map, List.zipIdx_map, List.map_map, List.map_map]
  rfl

theorem IsPlain.dropReturn_chars {row : Row} (plain : row.IsPlain)
    : Text.dropReturn '\r' row.chars = row.chars :=
  if_neg fun last => (plain.not_line_end (List.mem_of_getLast? last)).2 rfl

/-- The lines of a file of plain rows, with their numbers. -/
theorem ofContent_renderAll {rows : List Row} (plain : ∀ row ∈ rows, row.IsPlain)
    : Text.Line.ofContent (renderAll rows).toUTF8 = lines rows := by
  rw [ofContent_renderAll_eq_lines id fun row member => (plain row member).not_line_feed,
    List.map_id]
  exact fun row member => (plain row member).dropReturn_chars

theorem firstLine_renderAll {first : Row} {rest : List Row}
    (plain : ∀ row ∈ first :: rest, row.IsPlain)
    : Text.firstLine (renderAll (first :: rest)) = first.render := by
  rw [Text.firstLine, splitLines_chars fun row member => (plain row member).not_line_feed,
    List.map_cons, List.headD_cons, (plain first List.mem_cons_self).dropReturn_chars, render]

end Row

end NameTables
