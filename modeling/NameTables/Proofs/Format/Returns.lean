import NameTables.Proofs.Format.Cells

/-! Carriage returns at the end of lines.
A line feed takes one carriage return before it along, so the last cell of a line is read without
one at its end. What a row spells comes back but for this return.
-/

namespace NameTables

namespace Text

/-- Neither a tab nor a line feed stands in the text. -/
def IsCell (text : String) : Prop := ∀ c ∈ text.toList, c ≠ '\t' ∧ c ≠ '\n'

instance (text : String) : Decidable (IsCell text) :=
  List.decidableBAll (fun c => c ≠ '\t' ∧ c ≠ '\n') text.toList

def EndsInReturn (text : String) : Prop := text.toList.getLast? = some '\r'

instance (text : String) : Decidable (EndsInReturn text) := inferInstanceAs (Decidable (_ = _))

/-- The text without a carriage return at its end. -/
def trimReturn (text : String) : String := String.ofList (dropReturn '\r' text.toList)

/-- A text without a carriage return at its end stays as it is. -/
theorem trimReturn_eq_self_iff {text : String} : trimReturn text = text ↔ ¬ EndsInReturn text := by
  constructor
  · intro same ends
    have chars_eq : text.toList.dropLast = text.toList := by
      simpa [trimReturn, dropReturn, show text.toList.getLast? = some '\r' from ends]
        using congrArg String.toList same
    have shorter := congrArg List.length chars_eq
    have nonempty := List.length_pos_of_mem (List.mem_of_getLast? ends)
    rw [List.length_dropLast] at shorter
    omega
  · intro other
    have kept : text.toList.getLast? ≠ some '\r' := other
    rw [trimReturn, dropReturn, if_neg kept, String.ofList_toList]

theorem IsCell.trimReturn {text : String} (cell : IsCell text) : IsCell (trimReturn text) := by
  intro c member
  rw [Text.trimReturn, String.toList_ofList, dropReturn] at member
  split at member
  · exact cell c (List.dropLast_subset _ member)
  · exact cell c member

theorem dropReturn_concat (front : List Char) (last : Char)
    : dropReturn '\r' (front ++ [last]) = if last = '\r' then front else front ++ [last] := by
  simp [dropReturn]

/-- What stands before a separator is not looked at. -/
theorem dropReturn_append_cons (front back : List Char) {sep : Char} (other : sep ≠ '\r')
    : dropReturn '\r' (front ++ sep :: back) = front ++ sep :: dropReturn '\r' back := by
  rcases List.eq_nil_or_concat' back with rfl | ⟨back, last, rfl⟩
  · rw [dropReturn_concat, if_neg other]
    rfl
  · have cut : front ++ sep :: (back ++ [last]) = (front ++ sep :: back) ++ [last] := by simp
    rw [cut, dropReturn_concat, dropReturn_concat]
    split
    · rfl
    · exact cut.symm

end Text

-----------------------------------------------------------------------------------------
-- Rows
-----------------------------------------------------------------------------------------

/-- The row stands on a line: it has a tag and then cells, at least one. -/
structure Row.IsLine (row : Row) : Prop where
  tag_ne : row.tag ≠ ""
  fields_ne : row.fields ≠ []
  cell : ∀ cell ∈ row.tag :: row.fields, Text.IsCell cell

namespace Row

/-- The row without a carriage return at the end of its last field. -/
def trimReturn (row : Row) : Row :=
  { row with fields := row.fields.dropLast ++ row.fields.getLast?.toList.map Text.trimReturn }

theorem IsLine.not_line_feed {row : Row} (line : row.IsLine) : '\n' ∉ row.chars := by
  intro member
  rw [chars, List.mem_append, List.mem_replicate] at member
  rcases member with ⟨_, same⟩ | cells
  · simp at same
  · rcases mem_intercalate cells with same | ⟨piece, listed, inside⟩
    · simp at same
    · obtain ⟨cell, among, rfl⟩ := List.mem_map.mp listed
      exact (line.cell cell among '\n' inside).2 rfl

/-- The last piece stands behind a separator, by list induction. -/
theorem intercalate_concat {α : Type} {sep : α} {pieces : List (List α)} (nonempty : pieces ≠ [])
    (last : List α)
    : [sep].intercalate (pieces ++ [last]) = [sep].intercalate pieces ++ sep :: last := by
  induction pieces with
  | nil => exact absurd rfl nonempty
  | cons piece pieces ih =>
      cases pieces with
      | nil => simp [List.intercalate]
      | cons next pieces =>
          have rest := ih (List.cons_ne_nil next pieces)
          rw [List.cons_append] at rest
          rw [List.cons_append, List.cons_append, List.intercalate_cons_cons, rest,
            List.intercalate_cons_cons]
          simp

/-- The end of a line takes the return from the last field. -/
theorem chars_trimReturn {row : Row} (line : row.IsLine)
    : Text.dropReturn '\r' row.chars = row.trimReturn.chars := by
  obtain ⟨depth, tag, fields⟩ := row
  rcases List.eq_nil_or_concat' fields with rfl | ⟨front, last, rfl⟩
  · exact absurd rfl line.fields_ne
  · have cells (last : String)
        : ((tag :: (front ++ [last])).map String.toList)
          = (tag :: front).map String.toList ++ [last.toList] := by
      simp
    have nonempty : (tag :: front).map String.toList ≠ [] := by simp
    simp only [chars, trimReturn, List.dropLast_concat, List.getLast?_concat, Option.toList_some,
      List.map_singleton, cells, intercalate_concat nonempty, ← List.append_assoc]
    rw [Text.dropReturn_append_cons _ _ (by decide), Text.trimReturn, String.toList_ofList]

/-- What is left of a line can be told from its text. -/
theorem IsLine.writable_trimReturn {row : Row} (line : row.IsLine) : row.trimReturn.Writable where
  tag_ne := line.tag_ne
  no_tab cell member tab := by
    have is_cell : Text.IsCell cell := by
      rcases List.mem_cons.mp member with rfl | field
      · exact line.cell _ List.mem_cons_self
      · rcases List.mem_append.mp field with inner | last
        · exact line.cell _ (List.mem_cons_of_mem _ (List.dropLast_subset _ inner))
        · obtain ⟨whole, ends, rfl⟩ := List.mem_map.mp last
          have among := List.mem_of_getLast? (Option.mem_toList.mp ends)
          exact (line.cell whole (List.mem_cons_of_mem _ among)).trimReturn
    exact (is_cell '\t' tab).1 rfl

/-- The lines of a file spell its rows without the returns. -/
theorem ofContent_renderAll_trimReturn {rows : List Row} (each : ∀ row ∈ rows, row.IsLine)
    : Text.Line.ofContent (renderAll rows).toUTF8 = lines (rows.map trimReturn) :=
  ofContent_renderAll_eq_lines trimReturn (fun row member => (each row member).not_line_feed)
    fun row member => chars_trimReturn (each row member)

end Row

-----------------------------------------------------------------------------------------
-- Declarations
-----------------------------------------------------------------------------------------

/-- The name without a carriage return at its end, if anything is left. -/
def Name.trimReturn? {kind : Kind} (name : Name kind) : Option (Name kind) :=
  let text := Text.trimReturn name.text
  if text = "" then none else some ⟨text⟩

theorem Name.trimReturn?_eq_self_iff {kind : Kind} {name : Name kind} (nonempty : name.text ≠ "")
    : name.trimReturn? = some name ↔ ¬ Text.EndsInReturn name.text := by
  rw [← Text.trimReturn_eq_self_iff, trimReturn?]
  constructor
  · intro kept
    obtain ⟨_, same⟩ := Option.ite_none_left_eq_some.mp kept
    exact congrArg Name.text (Option.some.inj same)
  · intro same
    simp [same, nonempty]

/-- The names without a carriage return at the end of the target. -/
def Names.trimReturn {kind : Kind} (names : Names 2 kind) : Names 2 kind :=
  names.setTarget (names.target.bind Name.trimReturn?)

@[simp]
theorem Names.first?_trimReturn {kind : Kind} (names : Names 2 kind)
    : names.trimReturn.first? = names.first? :=
  first?_setTarget _ _

@[simp]
theorem Names.source_trimReturn {kind : Kind} (names : Names 2 kind)
    : names.trimReturn.source = names.source := by
  rw [source_eq_first?, source_eq_first?, first?_trimReturn]

/-- An empty target is none, so it is not told from one that is nothing but a return. -/
theorem Names.fields_trimReturn {kind : Kind} (names : Names 2 kind) (depth : Nat) (tag : String)
    (front : List String)
    : (Row.mk depth tag (front ++ names.cells)).trimReturn
      = ⟨depth, tag, front ++ names.trimReturn.cells⟩ := by
  have target_cell : (names.trimReturn.target.map Name.text).getD ""
      = Text.trimReturn ((names.target.map Name.text).getD "") := by
    rw [trimReturn, target_setTarget]
    cases names.target with
    | none => rfl
    | some name =>
        by_cases empty : Text.trimReturn name.text = ""
        · simp [Name.trimReturn?, empty]
        · simp [Name.trimReturn?, empty]
  rw [cells_eq, cells_eq, source_trimReturn, target_cell]
  simp [Row.trimReturn, List.dropLast_append_of_ne_nil]

theorem Names.filled_trimReturn {kind : Kind} {names : Names 2 kind}
    (filled : ∀ name, names.first? = some name → name.text ≠ "")
    : names.trimReturn.Filled := by
  intro i name found
  match i with
  | 0 =>
      have first : names.trimReturn.source = some name := found
      rw [source_eq_first?, first?_trimReturn] at first
      exact filled name first
  | 1 =>
      have target : names.trimReturn.target = some name := found
      rw [trimReturn, target_setTarget] at target
      obtain ⟨whole, _, kept⟩ := Option.bind_eq_some_iff.mp target
      obtain ⟨nonempty, same⟩ := Option.ite_none_left_eq_some.mp kept
      exact Option.some.inj same ▸ nonempty

/-- What is declared by the row of a declaration once it has lost its return. -/
def Declaration.trimReturn (declaration : Declaration 2) : Declaration 2 :=
  ⟨declaration.path, declaration.names.trimReturn⟩

/-- The lines of a file of declarations spell what is declared once the returns are lost. -/
theorem Declaration.ofContent_renderAll {row : Declaration 2 → Row}
    (row_trimReturn : ∀ declaration, (row declaration).trimReturn = row declaration.trimReturn)
    {header : Row} {declarations : List (Declaration 2)} (header_line : header.IsLine)
    (each : ∀ declaration ∈ declarations, (row declaration).IsLine)
    : Text.Line.ofContent (Row.renderAll (header :: declarations.map row)).toUTF8
        = Row.lines (header.trimReturn :: (declarations.map trimReturn).map row)
      ∧ ∀ line ∈ header.trimReturn :: (declarations.map trimReturn).map row,
          line.Writable := by
  have rows_eq : (header :: declarations.map row).map Row.trimReturn
      = header.trimReturn :: (declarations.map trimReturn).map row := by
    rw [List.map_cons, List.map_map, List.map_map]
    simp only [Function.comp_def, row_trimReturn]
  have lines : ∀ line ∈ header :: declarations.map row, line.IsLine :=
    List.forall_mem_cons.mpr ⟨header_line, List.forall_mem_map.mpr each⟩
  rw [← rows_eq]
  refine ⟨Row.ofContent_renderAll_trimReturn lines, ?_⟩
  exact List.forall_mem_map.mpr fun line member => (lines line member).writable_trimReturn

theorem Declaration.readable_trimReturn {declaration : Declaration 2}
    (described : declaration.path.Readable) (fits : declaration.path.Fits declaration.names)
    (filled : ∀ name, declaration.names.first? = some name → name.text ≠ "")
    : declaration.trimReturn.Readable where
  path := described
  fits := by
    obtain ⟨path, names⟩ := declaration
    cases path with
    | cls | field | method => exact names.first?_trimReturn.trans fits
    | parameter => trivial
  filled := Names.filled_trimReturn filled

/-- Returns are lost declaration by declaration, by list induction. -/
theorem lastDeclared?_map_trimReturn (declarations : List (Declaration 2)) (path : Path)
    : lastDeclared? (declarations.map Declaration.trimReturn) path
      = (lastDeclared? declarations path).map Names.trimReturn := by
  have at_path (declaration : Declaration 2)
      : declaration.trimReturn.namesAt? path
        = (declaration.namesAt? path).map Names.trimReturn := by
    obtain ⟨declared, names⟩ := declaration
    by_cases same : declared = path
    · subst same
      simp [Declaration.namesAt?, Declaration.trimReturn]
    · simp [Declaration.namesAt?, Declaration.trimReturn, same]
  rw [lastDeclared?, lastDeclared?, List.filterMap_map, ← List.getLast?_map, List.map_filterMap]
  simp only [Function.comp_def, at_path]

end NameTables
