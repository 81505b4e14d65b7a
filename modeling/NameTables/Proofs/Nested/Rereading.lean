import NameTables.Proofs.Format.Legible
import NameTables.Proofs.Nested.Canonical

/-! Nested files of tables that were read.
Such a table is written in rows that stand on lines, and what comes back is what was written but for
carriage returns at the end of targets. The target label must not be lost whole, and no class
without a name must be written.
-/

namespace NameTables

/-- Every enclosing class has a name. -/
theorem Name.ne_of_mem_enclosing {name outer : ClassName} (inside : outer ∈ name.enclosing)
    : outer ≠ ⟨""⟩ := by
  fun_induction enclosing name with
  | case1 name next simple split shorter ih =>
      rcases List.mem_cons.mp inside with rfl | further
      · rintro rfl
        obtain ⟨⟨before, after⟩, cut, same⟩ := Option.map_eq_some_iff.mp split
        have nonempty := (splitChars?_eq_some_iff.mp cut).2.1
        have empty := congrArg (fun part => part.1.text.toList) same
        simp only [String.toList_ofList] at empty
        exact nonempty empty
      · exact ih further
  | case2 => cases inside

namespace Nested

variable {table : Table 2}

theorem fullTarget_isCell (legible : table.Legible) {owner : ClassName}
    (listed : owner ∈ table.classes.keys)
    : Text.IsCell (table.fullTarget owner).text := by
  have at_path {name : ClassName} {cls : Class 2} (stored : table.class? name = some cls)
      : table.names? (.cls name) = some cls.names :=
    Option.map_eq_some_iff.mpr ⟨cls, stored, rfl⟩
  refine Table.fullTarget_forall (by decide) (fun name listed => ?_)
    (fun name target named => ?_) listed
  · obtain ⟨cls, stored⟩ := Table.mem_keys_iff.mp listed
    exact legible.isCell_of_mem_texts (at_path stored) List.mem_cons_self
  · obtain ⟨cls, stored, target_eq⟩ := Option.bind_eq_some_iff.mp named
    exact legible.isCell_of_mem_cells (at_path stored) (Names.mem_cells_of_get target_eq)

/-- The row of an entry stands on a line. -/
theorem Kept.isLine (coherent : table.Coherent) (legible : table.Legible) {path : Path}
    (kept : Kept table path)
    : (table.written path).row.IsLine where
  tag_ne := (tag_isWord path).1
  fields_ne := by simp [Declaration.row, Names.cells_eq]
  cell cell member := by
    obtain ⟨names, found⟩ := kept.exists_names?
    rcases List.mem_cons.mp member with rfl | member
    · exact (tag_isWord path).2.isCell
    · rcases List.mem_append.mp member with key_cell | name_cell
      · exact legible.isCell_of_mem_path_cells found key_cell
      · rcases Names.mem_cells name_cell with rfl | ⟨i, name, written, rfl⟩
        · decide
        · rcases writtenNames_get_cases coherent found written with ⟨j, own⟩ | ⟨owner, rfl, same⟩
          · exact legible.isCell_of_mem_cells found (Names.mem_cells_of_get own)
          · exact same ▸ fullTarget_isCell legible kept.1

/-- An entry is written under the name in its key, which is empty for no more than one class. -/
theorem Kept.named (coherent : table.Coherent) (legible : table.Legible) {path : Path}
    (kept : Kept table path) (named : path ≠ .cls ⟨""⟩)
    : ∀ name, (table.writtenNames path).first? = some name → name.text ≠ "" := by
  intro name first
  obtain ⟨names, found⟩ := kept.exists_names?
  have filled := legible.filled found named
  rcases writtenNames_get_cases coherent found
    ((Names.source_eq_first? _).trans first) with ⟨j, own⟩ | ⟨owner, rfl, same⟩
  · exact filled j name own
  · obtain rfl : owner = name := Option.some.inj first
    rintro empty
    exact named (congrArg Path.cls (Name.ext empty))

theorem headerRow_isLine {source target : String} (source_cell : Text.IsCell source)
    (target_cell : Text.IsCell target)
    : (headerRow source target).IsLine :=
  Row.isLine_header (by decide : ∀ word ∈ ["tiny", "2", "0"], Text.IsWord word) source_cell
    target_cell

theorem headerRow_trimReturn (source target : String)
    : (headerRow source target).trimReturn
      = headerOf ⟨#v[source, Text.trimReturn target]⟩ := rfl

theorem row_trimReturn (declaration : Declaration 2)
    : declaration.row.trimReturn = declaration.trimReturn.row :=
  Names.fields_trimReturn declaration.names _ _ _

/-- A class without a name is written if a member of it has a target name. Neither is there a class
in it nor a method with parameters.
-/
theorem kept_unnamed_iff (legible : table.Legible)
    : Kept table (.cls ⟨""⟩)
      ↔ ∃ path name, path.kind ≠ .parameter ∧ table.targetAt? path = some name
          ∧ path.owner = ⟨""⟩ := by
  constructor
  · intro kept
    obtain ⟨inner, cls, stored, mapped, around⟩ := Table.carries_iff.mp kept.2
    obtain rfl : inner = ⟨""⟩ := by
      rcases List.mem_cons.mp around with same | enclosing
      · exact same.symm
      · exact absurd rfl (Name.ne_of_mem_enclosing enclosing)
    have class_found : table.names? (.cls ⟨""⟩) = some cls.names :=
      Option.map_eq_some_iff.mpr ⟨cls, stored, rfl⟩
    simp only [Class.isMapped, Method.isMapped, Bool.or_eq_true, List.any_eq_true,
      OrderedMap.mem_values_iff] at mapped
    rcases mapped with (named | ⟨field, ⟨key, listed⟩, named⟩)
      | ⟨method, ⟨key, listed⟩, named | ⟨parameter, ⟨index, inside⟩, _⟩⟩
    · rw [legible.unnamed class_found] at named
      simp [Names.target, Names.keyed, Names.get] at named
    · obtain ⟨name, named⟩ := Option.isSome_iff_exists.mp named
      have found : table.names? (.field ⟨""⟩ key) = some field.names :=
        Option.map_eq_some_iff.mpr
          ⟨field, Option.bind_eq_some_iff.mpr ⟨cls, stored, listed⟩, rfl⟩
      exact ⟨.field ⟨""⟩ key, name, by simp, (Table.targetAt?_of_names? found).trans named, rfl⟩
    · obtain ⟨name, named⟩ := Option.isSome_iff_exists.mp named
      have found : table.names? (.method ⟨""⟩ key) = some method.names :=
        Option.map_eq_some_iff.mpr
          ⟨method, Option.bind_eq_some_iff.mpr ⟨cls, stored, listed⟩, rfl⟩
      exact ⟨.method ⟨""⟩ key, name, by simp, (Table.targetAt?_of_names? found).trans named, rfl⟩
    · have method_stored : table.method? ⟨""⟩ key = some method :=
        Option.bind_eq_some_iff.mpr ⟨cls, stored, listed⟩
      have found : table.names? (.parameter ⟨""⟩ key index) = some parameter.names :=
        Option.map_eq_some_iff.mpr
          ⟨parameter, Option.bind_eq_some_iff.mpr ⟨method, method_stored, inside⟩, rfl⟩
      exact absurd rfl (legible.parameter found)
  · intro given
    rcases given with ⟨path, name, no_parameter, named, unnamed⟩
    obtain ⟨names, found, target_eq⟩ := Option.bind_eq_some_iff.mp named
    have kept := kept_of_target found (Option.isSome_iff_exists.mpr ⟨name, target_eq⟩)
    cases path with
    | cls owner =>
        obtain rfl : owner = ⟨""⟩ := unnamed
        exact kept
    | field | method | parameter =>
        subst unnamed
        exact kept.above List.mem_cons_self

/-- What the lines of a written file declare. -/
def trimmed (table : Table 2) (arrangement : Arrangement) : List (Declaration 2) :=
  ((paths table arrangement).map table.written).map Declaration.trimReturn

theorem mem_trimmed_iff (coherent : table.Coherent) {arrangement : Arrangement}
    {declaration : Declaration 2}
    : declaration ∈ trimmed table arrangement
      ↔ ∃ path, Kept table path ∧ (table.written path).trimReturn = declaration := by
  simp only [trimmed, List.map_map, List.mem_map, Function.comp_apply, mem_paths_iff coherent]

/-- A row without a name in front declares no class. -/
theorem not_says_of_unnamed {row : Row} {declaration : Declaration 2}
    (stated : row.Says declaration) (top : declaration.path.above.getLast? = none)
    : row.fields.head? ≠ some "" := by
  intro unnamed
  obtain ⟨cells, spelled, fields⟩ := stated.fields
  have readable := stated.readable
  obtain ⟨path, names⟩ := declaration
  cases path with
  | cls owner =>
      obtain rfl := spelled
      have first : names.source = some owner := (Names.source_eq_first? names).trans readable.fits
      rw [fields, Names.cells_eq, first] at unnamed
      exact readable.owner_ne (Name.ext (by simpa [Path.cells] using unnamed))
  | field | method | parameter => simp [Path.above] at top

section Written

variable {source target : String} (coherent : table.Coherent) (legible : table.Legible)
  (checked : table.checkDescriptors = .ok ()) (source_cell : Text.IsCell source)
  (target_cell : Text.IsCell target) (arrangement : Arrangement)

include coherent legible checked source_cell target_cell

/-- The rows that a written file spells. -/
theorem ofContent_written
    : Text.Line.ofContent
          (Row.renderAll (headerRow source target :: body table arrangement)).toUTF8
        = Row.lines (headerOf ⟨#v[source, Text.trimReturn target]⟩
            :: (trimmed table arrangement).map Declaration.row)
      ∧ ∀ row ∈ headerOf ⟨#v[source, Text.trimReturn target]⟩
            :: (trimmed table arrangement).map Declaration.row,
          row.Writable := by
  rw [body_eq coherent checked, ← headerRow_trimReturn]
  apply Declaration.ofContent_renderAll row_trimReturn (headerRow_isLine source_cell target_cell)
  intro declaration listed
  obtain ⟨path, among, rfl⟩ := List.mem_map.mp listed
  exact ((mem_paths_iff coherent).mp among).isLine coherent legible

/-- No class without a name is read. -/
theorem not_kept_unnamed_of_read {result : Table 2}
    (done : Format.nested.read 2
        (Row.renderAll (headerRow source target :: body table arrangement)).toUTF8
      = .ok result)
    : ¬ Kept table (.cls ⟨""⟩) := by
  intro kept
  obtain ⟨lines_eq, writable⟩ :=
    ofContent_written coherent legible checked source_cell target_cell arrangement
  obtain ⟨⟨header, statements, means⟩, _⟩ := read_means done
  have written : (table.written (.cls ⟨""⟩)).trimReturn.row
      ∈ (trimmed table arrangement).map Declaration.row :=
    List.mem_map_of_mem ((mem_trimmed_iff coherent).mpr ⟨_, kept, rfl⟩)
  obtain ⟨line, among, spelled⟩ :=
    exists_mem_of_forall₂ (spells_rows writable 1) (List.mem_cons_of_mem _ written)
  obtain ⟨_, record, decoded, same⟩ := spells_iff.mp spelled
  have decodes := means.decoded
  rw [lines_eq] at decodes
  obtain ⟨found, stored, decoded'⟩ := exists_mem_of_forall₂ decodes.flip among
  obtain rfl := Except.ok.inj (decoded.symm.trans decoded')
  rcases List.mem_cons.mp stored with rfl | below
  · have tag := means.tag
    rw [same] at tag
    exact absurd tag (by simp [Declaration.row, Declaration.trimReturn, Table.written, Path.tag])
  · obtain ⟨statement, listed, rfl⟩ := List.mem_map.mp below
    obtain ⟨before, after, split⟩ := List.append_of_mem listed
    have follows := means.told before statement after split
    have depth : statement.record.depth = 0 := congrArg Row.depth same
    rw [Statement.Follows] at follows
    split at follows
    · next declaration declared =>
      rw [ownerBehind, if_pos depth, same] at follows
      apply not_says_of_unnamed follows.2 follows.1
      simp [Declaration.row, Declaration.trimReturn, Names.cells_eq, Table.written, Path.cells,
        Table.writtenNames]
    · rw [depth] at follows
      exact absurd follows.1 (by decide)

/-- A written file is read as what was written, without carriage returns at the end of targets. It
is not read if nothing but one is the target label, or if a class without a name is in it.
-/
theorem read_written_eq_ok_iff (source_ne : source ≠ "") {result : Table 2}
    : Format.nested.read 2
          (Row.renderAll (headerRow source target :: body table arrangement)).toUTF8
        = .ok result
      ↔ (Text.trimReturn target ≠ "" ∧ ¬ Kept table (.cls ⟨""⟩))
        ∧ result = (Table.empty ⟨#v[source, Text.trimReturn target]⟩).declareAll
            (trimmed table arrangement) := by
  have whole (content : ByteArray)
      : Format.nested.read 2 content = read 2 (Text.Line.ofContent content) := rfl
  obtain ⟨lines_eq, writable⟩ :=
    ofContent_written coherent legible checked source_cell target_cell arrangement
  have ordered : Ordered [] ((trimmed table arrangement).map Declaration.path) := by
    have same : (trimmed table arrangement).map Declaration.path = paths table arrangement := by
      rw [trimmed, List.map_map]
      exact map_path_written _
    rw [same]
    exact ordered_paths
  have reads (label : Text.trimReturn target ≠ "") (named : ¬ Kept table (.cls ⟨""⟩))
      : read 2 (Row.lines (headerOf ⟨#v[source, Text.trimReturn target]⟩
          :: (trimmed table arrangement).map Declaration.row))
        = .ok ((Table.empty ⟨#v[source, Text.trimReturn target]⟩).declareAll
            (trimmed table arrangement)) := by
    apply read_lines (by decide) ((Labels.empty_not_mem_iff source_ne).mpr label) ?_ ordered
      writable
    intro declaration member
    obtain ⟨path, kept, rfl⟩ := (mem_trimmed_iff coherent).mp member
    apply Declaration.readable_trimReturn (kept.path_readable coherent checked)
      (writtenNames_fits table path)
    apply kept.named coherent legible
    rintro rfl
    exact named kept
  constructor
  · intro done
    have named :=
      not_kept_unnamed_of_read coherent legible checked source_cell target_cell arrangement done
    rw [whole, lines_eq] at done
    have label := (Labels.empty_not_mem_iff source_ne).mp (labelled_of_read_lines writable done)
    rw [reads label named] at done
    exact ⟨⟨label, named⟩, (Except.ok.inj done).symm⟩
  · intro given
    rcases given with ⟨⟨label, named⟩, rfl⟩
    rw [whole, lines_eq]
    exact reads label named

end Written

end Nested

end NameTables
