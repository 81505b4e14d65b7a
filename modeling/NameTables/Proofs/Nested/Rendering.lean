import NameTables.Proofs.Format.Cells
import NameTables.Proofs.Nested.Grammar

/-! Declarations as rows.
A declaration is written as a row below the rows of its owners. Rows that stand in such an order are
read back as the declarations that they were written for, whatever else the table has.
-/

namespace NameTables

variable {n : Nat}

/-- The first cell, which tells kinds apart below one owner. -/
def Path.tag : Path → String
  | .cls _ => "c"
  | .field _ _ => "f"
  | .method _ _ => "m"
  | .parameter _ _ _ => "p"

def Declaration.row (declaration : Declaration n) : Row where
  depth := declaration.path.above.length
  tag := declaration.path.tag
  fields := declaration.path.cells ++ declaration.names.cells

namespace Nested

/-- A record with the row of a declaration declares it below the owner on its path. -/
theorem declares_row {declaration : Declaration n} (readable : declaration.Readable)
    {record : Record} (same : record.toRow = declaration.row)
    : Declares n declaration.path.above.getLast? record (some declaration) := by
  have tag : record.tag = declaration.path.tag := congrArg Row.tag same
  have fields : record.fields = declaration.path.cells ++ declaration.names.cells :=
    congrArg Row.fields same
  obtain ⟨path, names⟩ := declaration
  cases path with
  | cls owner =>
      exact .cls tag (Record.keyedNames_cells readable.filled readable.fits fields)
  | field owner key =>
      exact .field tag (Record.takeFieldDescriptor_cell readable.path fields)
        (Record.keyedNames_cells readable.filled readable.fits rfl)
  | method owner key =>
      exact .method tag (Record.takeMethodDescriptor_cell readable.path fields)
        (Record.keyedNames_cells readable.filled readable.fits rfl)
  | parameter owner key index =>
      exact .parameter tag (Record.take_cons fields) (parameterIndex_toString index)
        (Record.names_cells readable.filled rfl)

-----------------------------------------------------------------------------------------
-- Rows in order
-----------------------------------------------------------------------------------------

/-- The open entries after one at the end of a path. -/
def trail (path : Path) : List Path := path.above ++ [path]

/-- Each path is written while the entries above it are open. -/
def Ordered : List Path → List Path → Prop
  | _, [] => True
  | opened, path :: rest => path.above <+: opened ∧ Ordered (trail path) rest

/-- Paths that can be written while the entries of `around` are open, which they leave open. -/
structure Block (around : List Path) (paths : List Path) : Prop where
  ordered : ∀ opened, around <+: opened → Ordered opened paths
  inside : ∀ path ∈ paths, around <+: trail path

theorem block_nil (around : List Path) : Block around [] := ⟨fun _ _ => trivial, by simp⟩

/-- What is open around all paths of a run is open after it, by induction on the paths. -/
theorem Ordered.append {around opened paths paths' : List Path} (ordered : Ordered opened paths)
    (inside : ∀ path ∈ paths, around <+: trail path) (open_around : around <+: opened)
    (next : ∀ opened, around <+: opened → Ordered opened paths')
    : Ordered opened (paths ++ paths') := by
  induction paths generalizing opened with
  | nil => exact next opened open_around
  | cons path rest ih =>
      obtain ⟨above, later⟩ := ordered
      refine ⟨above, ih later ?_ (inside path List.mem_cons_self)⟩
      exact fun path member => inside path (List.mem_cons_of_mem _ member)

theorem Block.append {around paths paths' : List Path} (block : Block around paths)
    (block' : Block around paths')
    : Block around (paths ++ paths') where
  ordered opened open_around :=
    (block.ordered opened open_around).append block.inside open_around block'.ordered
  inside path member := by
    rcases List.mem_append.mp member with first | second
    · exact block.inside path first
    · exact block'.inside path second

/-- Blocks of the same level follow one another, by list induction. -/
theorem Block.flatMap {α : Type} {around : List Path} {items : List α} {paths : α → List Path}
    (blocks : ∀ item ∈ items, Block around (paths item))
    : Block around (items.flatMap paths) := by
  induction items with
  | nil => exact block_nil around
  | cons item items ih =>
      rw [List.flatMap_cons]
      exact (blocks item List.mem_cons_self).append
        (ih fun item member => blocks item (List.mem_cons_of_mem _ member))

/-- An entry stands in front of the block of those in it. -/
theorem Block.cons {path : Path} {paths : List Path} (block : Block (trail path) paths)
    : Block path.above (path :: paths) where
  ordered _ open_above := ⟨open_above, block.ordered _ (List.prefix_refl _)⟩
  inside other member := by
    have open_above : path.above <+: trail path := List.prefix_append _ _
    rcases List.mem_cons.mp member with rfl | later
    · exact open_above
    · exact open_above.trans (block.inside other later)

theorem Block.single (path : Path) : Block path.above [path] := (block_nil _).cons

/-- A path needs what was declared before, by induction on the paths. -/
theorem Ordered.above_mem {opened paths : List Path} (ordered : Ordered opened paths) {path : Path}
    (member : path ∈ paths) {owner : Path} (above : owner ∈ path.above)
    : owner ∈ opened ∨ owner ∈ paths := by
  induction paths generalizing opened with
  | nil => simp at member
  | cons first rest ih =>
      obtain ⟨first_above, later⟩ := ordered
      rcases List.mem_cons.mp member with rfl | further
      · exact Or.inl (first_above.subset above)
      · rcases ih later further with open_first | listed
        · rcases List.mem_append.mp open_first with higher | here
          · exact Or.inl (first_above.subset higher)
          · rw [List.mem_singleton] at here
            exact Or.inr (here ▸ List.mem_cons_self)
        · exact Or.inr (List.mem_cons_of_mem _ listed)

theorem Ordered.ownersDeclared {declarations : List (Declaration n)}
    (ordered : Ordered [] (declarations.map Declaration.path))
    : OwnersDeclared declarations := by
  intro declaration member owner above
  have listed := List.mem_map_of_mem (f := Declaration.path) member
  rcases ordered.above_mem listed above with none_open | declared
  · simp at none_open
  · exact declared

/-- The paths of the open entries. -/
def Progress.paths (progress : Progress n) : List Path := progress.opened.map Open.path

/-- A line with the row of a declaration declares it. -/
theorem step_row {progress : Progress n} {line : Text.Line} {declaration : Declaration n}
    (readable : declaration.Readable) (spelled : Spells line declaration.row)
    (above : declaration.path.above <+: progress.paths)
    : ∃ next, step progress line = .ok next
        ∧ next.table = progress.table.declare declaration
        ∧ next.paths = trail declaration.path := by
  obtain ⟨_, record, decoded, same⟩ := spells_iff.mp spelled
  have depth : record.depth = declaration.path.above.length := congrArg Row.depth same
  have around : (progress.around record.depth).map Open.path = declaration.path.above := by
    rw [Progress.around, List.map_take, depth]
    exact (List.prefix_iff_eq_take.mp above).symm
  have owner : progress.ownerAt record.depth = declaration.path.above.getLast? := by
    rw [Progress.ownerAt, ← List.getLast?_map, around]
  have shallow : record.depth ≤ progress.opened.length := by
    have bound := above.length_le
    rw [Progress.paths, List.length_map] at bound
    rw [depth]
    exact bound
  refine ⟨progress.advance record (some declaration), ?_, rfl, ?_⟩
  · refine step_eq_ok_iff.mpr ⟨record, some declaration, decoded, shallow, ?_, rfl⟩
    rw [owner]
    exact declares_row readable same
  · rw [Progress.advance, Progress.paths, List.map_append, around]
    rfl

/-- Lines with the rows of declarations declare them one after another, by line induction. -/
theorem run_rows {lines : List Text.Line} {declarations : List (Declaration n)}
    (readable : ∀ declaration ∈ declarations, declaration.Readable)
    (spelled : List.Forall₂ Spells lines (declarations.map Declaration.row))
    (progress : Progress n)
    (ordered : Ordered progress.paths (declarations.map Declaration.path))
    : ∃ progress', lines.foldlM step progress = .ok progress'
        ∧ progress'.table = progress.table.declareAll declarations := by
  induction declarations generalizing lines progress with
  | nil =>
      cases spelled
      exact ⟨progress, rfl, rfl⟩
  | cons declaration rest ih =>
      cases spelled with
      | cons here later =>
          obtain ⟨above, ordered_rest⟩ := ordered
          obtain ⟨next, stepped, table_eq, paths_eq⟩ :=
            step_row (readable declaration List.mem_cons_self) here above
          obtain ⟨progress', run, made⟩ :=
            ih (fun declaration member => readable declaration (List.mem_cons_of_mem _ member))
              later next (paths_eq ▸ ordered_rest)
          refine ⟨progress', ?_, ?_⟩
          · rw [List.foldlM_cons]
            exact Outcome.bind_eq_ok_iff.mpr ⟨next, stepped, run⟩
          · rw [made, table_eq]
            rfl

def headerOf (labels : Labels n) : Row := ⟨0, "tiny", "2" :: "0" :: labels.toList⟩

/-- The lines of a file spell its rows, by list induction. -/
theorem spells_rows {rows : List Row} (writable : ∀ row ∈ rows, row.Writable) (number : Nat)
    : List.Forall₂ Spells
        ((rows.zipIdx number).map fun (row, number) => ⟨number, some row.render⟩) rows := by
  induction rows generalizing number with
  | nil => exact .nil
  | cons row rows ih =>
      exact .cons ⟨rfl, writable row List.mem_cons_self⟩
        (ih (fun row member => writable row (List.mem_cons_of_mem _ member)) (number + 1))

/-- Lines with the rows of declarations hold the table that these make. -/
theorem read_lines (enough : 2 ≤ n) {labels : Labels n} (labelled : "" ∉ labels.toList)
    {declarations : List (Declaration n)}
    (readable : ∀ declaration ∈ declarations, declaration.Readable)
    (ordered : Ordered [] (declarations.map Declaration.path))
    (writable : ∀ row ∈ headerOf labels :: declarations.map Declaration.row, row.Writable)
    : read n (Row.lines (headerOf labels :: declarations.map Declaration.row))
      = .ok ((Table.empty labels).declareAll declarations) := by
  obtain ⟨first, rest, here, later, lines⟩ :=
    List.forall₂_cons_right_iff.mp (spells_rows writable 1)
  obtain ⟨_, header, decoded, same⟩ := spells_iff.mp here
  obtain ⟨progress, run, made⟩ :=
    run_rows readable later ⟨Table.empty labels, []⟩ ordered
  rw [read_eq_ok_iff]
  refine ⟨enough, first, rest, header, labels, progress, lines, decoded, ?_, run, made.symm⟩
  exact headerLabels_eq_ok_iff.mpr ⟨congrArg Row.tag same, congrArg Row.fields same, labelled⟩

/-- The first line is the header, and none of its labels is empty. -/
theorem labelled_of_read_lines {labels : Labels n} {rows : List Row} {table : Table n}
    (writable : ∀ row ∈ headerOf labels :: rows, row.Writable)
    (done : read n (Row.lines (headerOf labels :: rows)) = .ok table)
    : "" ∉ labels.toList := by
  rw [read_eq_ok_iff] at done
  obtain ⟨_, _, _, header, found, _, lines, decoded, labelled, _⟩ := done
  obtain ⟨_, fields, nonempty⟩ := headerLabels_eq_ok_iff.mp labelled
  have header_eq := Row.toRow_of_lines_eq (writable _ List.mem_cons_self) lines decoded
  have labels_eq : labels.toList = found.toList := by
    simpa [headerOf] using (congrArg Row.fields header_eq).symm.trans fields
  exact labels_eq ▸ nonempty

/-- A file of declarations holds the table that they make. -/
theorem read_rows (enough : 2 ≤ n) {labels : Labels n} (labelled : "" ∉ labels.toList)
    {declarations : List (Declaration n)}
    (readable : ∀ declaration ∈ declarations, declaration.Readable)
    (ordered : Ordered [] (declarations.map Declaration.path))
    (plain : ∀ row ∈ headerOf labels :: declarations.map Declaration.row, row.IsPlain)
    : Format.nested.read n
        (Row.renderAll (headerOf labels :: declarations.map Declaration.row)).toUTF8
      = .ok ((Table.empty labels).declareAll declarations) := by
  have whole (content : ByteArray)
      : Format.nested.read n content = read n (Text.Line.ofContent content) := rfl
  rw [whole, Row.ofContent_renderAll plain]
  exact read_lines enough labelled readable ordered fun row member => (plain row member).writable

end Nested

end NameTables
