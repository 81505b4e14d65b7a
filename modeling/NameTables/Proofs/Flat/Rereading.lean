import NameTables.Proofs.Flat.RoundTrip
import NameTables.Proofs.Format.Legible

/-! Flat files of tables that were read.
Such a table is written in rows that stand on lines, and what comes back is what was written but for
carriage returns at the end of targets. Only the target label must not be lost whole.
-/

namespace NameTables.Flat

variable {table : Table 2} {arrangement : Arrangement}

/-- The row of an entry stands on a line. -/
theorem Kept.isLine (legible : table.Legible) {declaration : Declaration 2}
    (kept : Kept table declaration)
    : (row declaration).IsLine where
  tag_ne := (tag_isWord kept.1).1
  fields_ne := by simp [row, Names.cells_eq]
  cell cell member := by
    obtain ⟨no_parameter, found, _⟩ := kept
    rcases List.mem_cons.mp member with rfl | member
    · exact (tag_isWord no_parameter).2.isCell
    · rcases List.mem_append.mp member with key_cell | name_cell
      · rcases List.mem_append.mp key_cell with owner_cell | key_cell
        · apply legible.isCell_of_mem_texts found
          obtain ⟨path, names⟩ := declaration
          cases path with
          | cls => cases owner_cell
          | field | method | parameter =>
              obtain rfl := List.mem_singleton.mp owner_cell
              exact List.mem_cons_self
        · exact legible.isCell_of_mem_path_cells found key_cell
      · exact legible.isCell_of_mem_cells found name_cell

/-- An entry with a target name has a name in its key. -/
theorem Kept.named (legible : table.Legible) {declaration : Declaration 2}
    (kept : Kept table declaration)
    : ∀ name, declaration.names.first? = some name → name.text ≠ "" := by
  intro name first
  obtain ⟨_, found, mapped⟩ := kept
  obtain ⟨i, at_first⟩ := Names.exists_get_of_first? first
  refine legible.filled found ?_ i name at_first
  intro unnamed
  obtain ⟨path, names⟩ := declaration
  obtain rfl : path = .cls ⟨""⟩ := unnamed
  rw [legible.unnamed found] at mapped
  simp [Names.target, Names.keyed, Names.get] at mapped

theorem row_trimReturn (declaration : Declaration 2)
    : (row declaration).trimReturn = row declaration.trimReturn :=
  Names.fields_trimReturn declaration.names _ _ _

theorem headerRow_isLine {source target : String} (source_cell : Text.IsCell source)
    (target_cell : Text.IsCell target)
    : (headerRow source target).IsLine :=
  Row.isLine_header (by decide : ∀ word ∈ ["v1"], Text.IsWord word) source_cell target_cell

theorem headerRow_trimReturn (source target : String)
    : (headerRow source target).trimReturn
      = headerOf ⟨#v[source, Text.trimReturn target]⟩ := rfl

/-- What the lines of a written file declare. -/
def trimmed (table : Table 2) (arrangement : Arrangement) : List (Declaration 2) :=
  (written table arrangement).map Declaration.trimReturn

theorem mem_trimmed_iff (coherent : table.Coherent) {declaration : Declaration 2}
    : declaration ∈ trimmed table arrangement
      ↔ ∃ before, Kept table before ∧ before.trimReturn = declaration := by
  simp only [trimmed, List.mem_map, mem_written_iff coherent]

section Written

variable {source target : String} (coherent : table.Coherent) (legible : table.Legible)
  (checked : table.checkDescriptors = .ok ()) (source_cell : Text.IsCell source)
  (target_cell : Text.IsCell target) (arrangement : Arrangement)

include coherent legible checked source_cell target_cell

/-- The rows that a written file spells. -/
theorem ofContent_written
    : Text.Line.ofContent
          (Row.renderAll (headerRow source target :: body table arrangement)).toUTF8
        = Row.lines (headerOf ⟨#v[source, Text.trimReturn target]⟩
            :: (trimmed table arrangement).map row)
      ∧ ∀ line ∈ headerOf ⟨#v[source, Text.trimReturn target]⟩
            :: (trimmed table arrangement).map row,
          line.Writable := by
  rw [body_eq coherent checked, ← headerRow_trimReturn]
  apply Declaration.ofContent_renderAll row_trimReturn (headerRow_isLine source_cell target_cell)
  intro declaration listed
  exact ((mem_written_iff coherent).mp listed).isLine legible

/-- A written file is read as what was written, without carriage returns at the end of targets. It
is not read if nothing but one is the target label.
-/
theorem read_written_eq_ok_iff (source_ne : source ≠ "") {result : Table 2}
    : Format.flat.read 2
          (Row.renderAll (headerRow source target :: body table arrangement)).toUTF8
        = .ok result
      ↔ Text.trimReturn target ≠ ""
        ∧ result = (Table.empty ⟨#v[source, Text.trimReturn target]⟩).declareAll
            (trimmed table arrangement) := by
  have whole (content : ByteArray)
      : Format.flat.read 2 content = read 2 (Text.Line.ofContent content) := rfl
  obtain ⟨lines_eq, writable⟩ :=
    ofContent_written coherent legible checked source_cell target_cell arrangement
  have reads (label : Text.trimReturn target ≠ "")
      : read 2 (Row.lines (headerOf ⟨#v[source, Text.trimReturn target]⟩
          :: (trimmed table arrangement).map row))
        = .ok ((Table.empty ⟨#v[source, Text.trimReturn target]⟩).declareAll
            (trimmed table arrangement)) := by
    apply read_lines (by decide) ((Labels.empty_not_mem_iff source_ne).mpr label) ?_ ?_ writable
    · intro declaration member
      obtain ⟨before, kept, rfl⟩ := (mem_trimmed_iff coherent).mp member
      exact Declaration.readable_trimReturn (kept.path_readable coherent checked)
        (coherent.names_fit kept.2.1) (kept.named legible)
    · intro declaration member
      obtain ⟨before, kept, rfl⟩ := (mem_trimmed_iff coherent).mp member
      exact kept.1
  rw [whole, lines_eq]
  constructor
  · intro done
    have label := (Labels.empty_not_mem_iff source_ne).mp (labelled_of_read_lines writable done)
    rw [reads label] at done
    exact ⟨label, (Except.ok.inj done).symm⟩
  · intro given
    rcases given with ⟨label, rfl⟩
    exact reads label

end Written

end NameTables.Flat
