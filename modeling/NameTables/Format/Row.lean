import NameTables.Text.Quoted

/-! Rows of tab separated cells.
The tabs in front of the first cell say how deep a row is nested. A written row reads back as the
same cells if none holds a tab.
-/

namespace NameTables

/-- The first cell says what the row is about. -/
structure Row where
  depth : Nat
  tag : String
  fields : List String
  deriving DecidableEq

namespace Row

def parse (text : String) : Row :=
  let chars := text.toList
  let cells := (chars.dropWhile (· = '\t')).splitOn '\t'
  { depth := (chars.takeWhile (· = '\t')).length
    tag := String.ofList (cells.headD [])
    fields := cells.tail.map String.ofList }

def chars (row : Row) : List Char :=
  List.replicate row.depth '\t'
    ++ ['\t'].intercalate ((row.tag :: row.fields).map String.toList)

def render (row : Row) : String := String.ofList row.chars

/-- The row can be told from its text. -/
structure Writable (row : Row) : Prop where
  tag_ne : row.tag ≠ ""
  no_tab : ∀ cell ∈ row.tag :: row.fields, '\t' ∉ cell.toList

theorem chars_eq (row : Row)
    : ∃ rest, ['\t'].intercalate ((row.tag :: row.fields).map String.toList)
      = row.tag.toList ++ rest := by
  cases row.fields with
  | nil => exact ⟨[], by simp⟩
  | cons field fields => exact ⟨_, by rw [List.map_cons, List.map_cons]; rfl⟩

/-- A written row reads back as itself. -/
theorem parse_render {row : Row} (writable : row.Writable)
    : parse row.render = row := by
  obtain ⟨rest, begins⟩ := row.chars_eq
  have tag_ne : row.tag.toList ≠ [] := by
    simpa using writable.tag_ne
  obtain ⟨c, tag, tag_eq⟩ := List.exists_cons_of_ne_nil tag_ne
  have first : c ≠ '\t' := by
    rintro rfl
    exact writable.no_tab row.tag List.mem_cons_self (tag_eq ▸ List.mem_cons_self)
  have tabs : ∀ x ∈ List.replicate row.depth '\t', decide (x = '\t') = true := by
    intro x member
    simp [List.eq_of_mem_replicate member]
  have split : (['\t'].intercalate ((row.tag :: row.fields).map String.toList)).splitOn '\t'
      = (row.tag :: row.fields).map String.toList := by
    apply List.splitOn_intercalate
    · intro cell member
      obtain ⟨text, among, rfl⟩ := List.mem_map.mp member
      exact writable.no_tab text among
    · simp
  have dropped : row.chars.dropWhile (· = '\t')
      = ['\t'].intercalate ((row.tag :: row.fields).map String.toList) := by
    rw [chars, List.dropWhile_append_of_pos tabs, begins, tag_eq]
    simp [first]
  have taken : row.chars.takeWhile (· = '\t') = List.replicate row.depth '\t' := by
    rw [chars, List.takeWhile_append_of_pos tabs, begins, tag_eq]
    simp [first]
  simp only [parse, render, String.toList_ofList, dropped, taken, split]
  simp [Function.comp_def]

/-- The text of a file with these rows, each ended by a line feed. -/
def renderAll (rows : List Row) : String :=
  String.ofList (rows.flatMap fun row => row.chars ++ ['\n'])

end Row

/-- A row that stands on a line of a file. Reading takes the fields from the front. -/
structure Record extends Row where
  line : Nat
  deriving DecidableEq

/-- A record in messages, with the fields that are not taken yet. -/
def Record.display (record : Record) : String :=
  "TinyLine \x7b line_number: " ++ toString record.line
    ++ ", idents: " ++ toString record.depth
    ++ ", first_field: " ++ Text.quote record.tag
    ++ ", fields: IntoIter(" ++ Text.quoteList record.fields ++ ") \x7d"

end NameTables
