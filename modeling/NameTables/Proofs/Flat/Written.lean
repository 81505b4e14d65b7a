import NameTables.Format
import NameTables.Proofs.Flat.Steps
import NameTables.Proofs.Format.Words
import NameTables.Proofs.Table.Content

/-! The written lines as declarations.
Each line below the header declares one class, field or method that has a target name, with all its
names. They come in any order, and every one of them is read back by itself.
-/

namespace NameTables

namespace Flat

variable {n : Nat}

-----------------------------------------------------------------------------------------
-- The row of a declaration
-----------------------------------------------------------------------------------------

/-- The first cell of a row. There are no rows for parameters. -/
def tag : Kind → String
  | .cls => "CLASS"
  | .field => "FIELD"
  | .method => "METHOD"
  | .parameter => ""

/-- Members stand behind the name of their class. -/
def ownerCells : Path → List String
  | .cls _ => []
  | .field owner _ => [owner.text]
  | .method owner _ => [owner.text]
  | .parameter owner _ _ => [owner.text]

def row (declaration : Declaration n) : Row where
  depth := 0
  tag := tag declaration.path.kind
  fields := ownerCells declaration.path ++ declaration.path.cells ++ declaration.names.cells

/-- A record with the row of a declaration declares it. -/
theorem declares_row {declaration : Declaration n} (readable : declaration.Readable)
    (no_parameter : declaration.path.kind ≠ .parameter) {record : Record}
    (same : record.toRow = row declaration)
    : Declares n record declaration := by
  have flush : record.depth = 0 := congrArg Row.depth same
  have tagged : record.tag = tag declaration.path.kind := congrArg Row.tag same
  have fields : record.fields
      = ownerCells declaration.path ++ declaration.path.cells ++ declaration.names.cells :=
    congrArg Row.fields same
  obtain ⟨path, names⟩ := declaration
  cases path with
  | cls owner =>
      exact .cls flush tagged (Record.keyedNames_cells readable.filled readable.fits fields)
  | field owner key =>
      exact .field flush tagged (Record.take_cons fields)
        (Record.takeFieldDescriptor_cell readable.path rfl)
        (Record.keyedNames_cells readable.filled readable.fits rfl)
  | method owner key =>
      exact .method flush tagged (Record.take_cons fields)
        (Record.takeMethodDescriptor_cell readable.path rfl)
        (Record.keyedNames_cells readable.filled readable.fits rfl)
  | parameter => exact absurd rfl no_parameter

/-- Lines with the rows of declarations declare them, by list induction. -/
theorem listed_rows {declarations : List (Declaration n)}
    (readable : ∀ declaration ∈ declarations, declaration.Readable)
    (no_parameters : ∀ declaration ∈ declarations, declaration.path.kind ≠ .parameter)
    (writable : ∀ declaration ∈ declarations, (row declaration).Writable) (number : Nat)
    : Listed
        (((declarations.map row).zipIdx number).map fun (row, number) =>
          ⟨number, some row.render⟩)
        declarations := by
  induction declarations generalizing number with
  | nil => exact .nil
  | cons declaration rest ih =>
      have here : Row.parse (row declaration).render = row declaration :=
        Row.parse_render (writable declaration List.mem_cons_self)
      refine .cons ⟨{ row declaration with line := number }, ?_, ?_⟩ ?_
      · exact Text.Line.record_eq_ok_iff.mpr ⟨_, rfl, by rw [here]⟩
      · exact declares_row (readable declaration List.mem_cons_self)
          (no_parameters declaration List.mem_cons_self) rfl
      · exact ih (fun declaration member => readable declaration (List.mem_cons_of_mem _ member))
          (fun declaration member => no_parameters declaration (List.mem_cons_of_mem _ member))
          (fun declaration member => writable declaration (List.mem_cons_of_mem _ member))
          (number + 1)

def headerOf (labels : Labels n) : Row := ⟨0, "v1", labels.toList⟩

theorem render_ne_empty {row : Row} (writable : row.Writable) : row.render ≠ "" := by
  intro empty
  have parsed := Row.parse_render writable
  rw [empty] at parsed
  exact writable.tag_ne (congrArg Row.tag parsed).symm

/-- None of the lines of a file of rows is skipped. -/
theorem filter_lines {rows : List Row} (writable : ∀ row ∈ rows, row.Writable)
    : (Row.lines rows).filter (·.text ≠ some "") = Row.lines rows := by
  rw [List.filter_eq_self]
  intro line member
  obtain ⟨⟨written, number⟩, listed, rfl⟩ := List.mem_map.mp member
  simpa using render_ne_empty (writable written (List.fst_mem_of_mem_zipIdx listed))

/-- Lines with the rows of declarations hold the table that these make. -/
theorem read_lines (enough : 2 ≤ n) {labels : Labels n} (labelled : "" ∉ labels.toList)
    {declarations : List (Declaration n)}
    (readable : ∀ declaration ∈ declarations, declaration.Readable)
    (no_parameters : ∀ declaration ∈ declarations, declaration.path.kind ≠ .parameter)
    (writable : ∀ line ∈ headerOf labels :: declarations.map row, line.Writable)
    : read n (Row.lines (headerOf labels :: declarations.map row))
      = .ok ((Table.empty labels).declareAll declarations) := by
  obtain ⟨header_writable, rows_writable⟩ := List.forall_mem_cons.mp writable
  have parsed : Row.parse (headerOf labels).render = headerOf labels :=
    Row.parse_render header_writable
  have listed : Listed _ declarations :=
    listed_rows readable no_parameters (List.forall_mem_map.mp rows_writable) 2
  rw [read_eq_ok_iff]
  refine ⟨enough, _, _, { headerOf labels with line := 1 }, labels, declarations,
    filter_lines writable, ?_, ?_, listed, rfl⟩
  · exact Text.Line.record_eq_ok_iff.mpr ⟨_, rfl, by rw [parsed]⟩
  · exact headerLabels_eq_ok_iff.mpr ⟨rfl, rfl, labelled⟩

/-- The first line is the header, and none of its labels is empty. -/
theorem labelled_of_read_lines {labels : Labels n} {rows : List Row} {table : Table n}
    (writable : ∀ line ∈ headerOf labels :: rows, line.Writable)
    (done : read n (Row.lines (headerOf labels :: rows)) = .ok table)
    : "" ∉ labels.toList := by
  rw [read_eq_ok_iff, filter_lines writable] at done
  obtain ⟨_, _, _, header, found, _, lines, decoded, labelled, _⟩ := done
  obtain ⟨_, fields, nonempty⟩ := headerLabels_eq_ok_iff.mp labelled
  have header_eq := Row.toRow_of_lines_eq (writable _ List.mem_cons_self) lines decoded
  have labels_eq : labels.toList = found.toList :=
    (congrArg Row.fields header_eq).symm.trans fields
  exact labels_eq ▸ nonempty

/-- A file of declarations holds the table that they make. -/
theorem read_rows (enough : 2 ≤ n) {labels : Labels n} (labelled : "" ∉ labels.toList)
    {declarations : List (Declaration n)}
    (readable : ∀ declaration ∈ declarations, declaration.Readable)
    (no_parameters : ∀ declaration ∈ declarations, declaration.path.kind ≠ .parameter)
    (header_plain : (headerOf labels).IsPlain)
    (plain : ∀ declaration ∈ declarations, (row declaration).IsPlain)
    : Format.flat.read n
        (Row.renderAll (headerOf labels :: declarations.map row)).toUTF8
      = .ok ((Table.empty labels).declareAll declarations) := by
  have all_plain : ∀ line ∈ headerOf labels :: declarations.map row, line.IsPlain := by
    simpa [header_plain] using plain
  have whole (content : ByteArray)
      : Format.flat.read n content = read n (Text.Line.ofContent content) := rfl
  rw [whole, Row.ofContent_renderAll all_plain]
  exact read_lines enough labelled readable no_parameters fun line member =>
    (all_plain line member).writable

-----------------------------------------------------------------------------------------
-- What is written
-----------------------------------------------------------------------------------------

/-- (Kept table declaration) says that a declaration has a line: it is that of an entry with a
target name, and not of a parameter.
-/
def Kept (table : Table 2) (declaration : Declaration 2) : Prop :=
  declaration.path.kind ≠ .parameter
  ∧ table.names? declaration.path = some declaration.names
  ∧ declaration.names.target.isSome = true

def classDeclaration? (cls : Class 2) : Option (Declaration 2) :=
  cls.names.source.map fun owner => ⟨.cls owner, cls.names⟩

def fieldDeclaration? (field : Member (Field 2)) : Option (Declaration 2) :=
  field.item.key?.map fun key => ⟨.field field.owner key, field.item.names⟩

def methodDeclaration? (method : Member (Method 2)) : Option (Declaration 2) :=
  method.item.key?.map fun key => ⟨.method method.owner key, method.item.names⟩

/-- What the lines declare, in their order. -/
def written (table : Table 2) (arrangement : Arrangement) : List (Declaration 2) :=
  (arrangement.sortClasses (classes table)).filterMap classDeclaration?
    ++ (arrangement.sortFields (fields table)).filterMap fieldDeclaration?
    ++ (arrangement.sortMethods (methods table)).filterMap methodDeclaration?

variable {table : Table 2} {arrangement : Arrangement}

theorem mem_classes_iff {cls : Class 2}
    : cls ∈ classes table
      ↔ ∃ owner, table.class? owner = some cls ∧ cls.names.target.isSome = true := by
  rw [classes, List.mem_filter, OrderedMap.mem_values_iff, exists_and_right]
  rfl

theorem mem_fields_iff {field : Member (Field 2)}
    : field ∈ fields table
      ↔ ∃ key, table.field? field.owner key = some field.item
          ∧ field.item.names.target.isSome = true := by
  simp only [fields, List.mem_flatMap, List.mem_map, List.mem_filter, Prod.exists,
    OrderedMap.mem_values_iff, ← OrderedMap.get?_eq_some_iff, Table.field?, Table.class?,
    Option.bind_eq_bind, Option.bind_eq_some_iff]
  constructor
  · intro given
    rcases given with ⟨owner, cls, stored, item, ⟨⟨key, found⟩, named⟩, rfl⟩
    exact ⟨key, ⟨cls, stored, found⟩, named⟩
  · intro given
    rcases given with ⟨key, ⟨cls, stored, found⟩, named⟩
    exact ⟨field.owner, cls, stored, field.item, ⟨⟨key, found⟩, named⟩, rfl⟩

theorem mem_methods_iff {method : Member (Method 2)}
    : method ∈ methods table
      ↔ ∃ key, table.method? method.owner key = some method.item
          ∧ method.item.names.target.isSome = true := by
  simp only [methods, List.mem_flatMap, List.mem_map, List.mem_filter, Prod.exists,
    OrderedMap.mem_values_iff, ← OrderedMap.get?_eq_some_iff, Table.method?, Table.class?,
    Option.bind_eq_bind, Option.bind_eq_some_iff]
  constructor
  · intro given
    rcases given with ⟨owner, cls, stored, item, ⟨⟨key, found⟩, named⟩, rfl⟩
    exact ⟨key, ⟨cls, stored, found⟩, named⟩
  · intro given
    rcases given with ⟨key, ⟨cls, stored, found⟩, named⟩
    exact ⟨method.owner, cls, stored, method.item, ⟨⟨key, found⟩, named⟩, rfl⟩

theorem classDeclaration?_eq (coherent : table.Coherent) {owner : ClassName} {cls : Class 2}
    (stored : table.class? owner = some cls)
    : classDeclaration? cls = some ⟨.cls owner, cls.names⟩ := by
  rw [classDeclaration?, Names.source_eq_first?, coherent.cls stored]
  rfl

theorem fieldDeclaration?_eq (coherent : table.Coherent) {owner : ClassName} {key : FieldKey}
    {field : Field 2} (stored : table.field? owner key = some field)
    : fieldDeclaration? ⟨owner, field⟩ = some ⟨.field owner key, field.names⟩ := by
  rw [fieldDeclaration?, coherent.field_key? stored]
  rfl

theorem methodDeclaration?_eq (coherent : table.Coherent) {owner : ClassName} {key : MethodKey}
    {method : Method 2} (stored : table.method? owner key = some method)
    : methodDeclaration? ⟨owner, method⟩ = some ⟨.method owner key, method.names⟩ := by
  rw [methodDeclaration?, coherent.method_key? stored]
  rfl

/-- Exactly the entries with a target name have a line. -/
theorem mem_written_iff (coherent : table.Coherent) {declaration : Declaration 2}
    : declaration ∈ written table arrangement ↔ Kept table declaration := by
  simp only [written, List.mem_append, List.mem_filterMap, Arrangement.sortClasses,
    Arrangement.sortFields, Arrangement.sortMethods, sortBy, List.mem_mergeSort, mem_classes_iff,
    mem_fields_iff, mem_methods_iff]
  constructor
  · intro given
    rcases given with (⟨cls, ⟨owner, stored, named⟩, same⟩ | ⟨field, ⟨key, stored, named⟩, same⟩)
      | ⟨method, ⟨key, stored, named⟩, same⟩
    · rw [classDeclaration?_eq coherent stored] at same
      obtain rfl := Option.some.inj same
      exact ⟨by simp, Option.map_eq_some_iff.mpr ⟨cls, stored, rfl⟩, named⟩
    · rw [fieldDeclaration?_eq coherent stored] at same
      obtain rfl := Option.some.inj same
      exact ⟨by simp, Option.map_eq_some_iff.mpr ⟨field.item, stored, rfl⟩, named⟩
    · rw [methodDeclaration?_eq coherent stored] at same
      obtain rfl := Option.some.inj same
      exact ⟨by simp, Option.map_eq_some_iff.mpr ⟨method.item, stored, rfl⟩, named⟩
  · intro given
    rcases given with ⟨no_parameter, found, named⟩
    obtain ⟨path, names⟩ := declaration
    cases path with
    | cls owner =>
        obtain ⟨cls, stored, rfl⟩ := Option.map_eq_some_iff.mp found
        exact Or.inl (Or.inl ⟨cls, ⟨owner, stored, named⟩, classDeclaration?_eq coherent stored⟩)
    | field owner key =>
        obtain ⟨field, stored, rfl⟩ := Option.map_eq_some_iff.mp found
        exact Or.inl (Or.inr
          ⟨⟨owner, field⟩, ⟨key, stored, named⟩, fieldDeclaration?_eq coherent stored⟩)
    | method owner key =>
        obtain ⟨method, stored, rfl⟩ := Option.map_eq_some_iff.mp found
        exact Or.inr
          ⟨⟨owner, method⟩, ⟨key, stored, named⟩, methodDeclaration?_eq coherent stored⟩
    | parameter => exact absurd rfl no_parameter

/-- The rows below the header are those of what is written. -/
theorem body_eq (coherent : table.Coherent) (checked : table.checkDescriptors = .ok ())
    : body table arrangement = (written table arrangement).map row := by
  rw [body, written, List.map_append, List.map_append, List.map_filterMap, List.map_filterMap,
    List.map_filterMap]
  congr 1
  · congr 1
    · apply List.filterMap_congr
      intro cls sorted
      obtain ⟨owner, stored, named⟩ := mem_classes_iff.mp (List.mem_mergeSort.mp sorted)
      obtain ⟨target, named⟩ := Option.isSome_iff_exists.mp named
      rw [classDeclaration?_eq coherent stored]
      simp [classRow?, row, tag, ownerCells, Path.cells, Names.cells_eq, Names.source_eq_first?,
        coherent.cls stored, named]
    · apply List.filterMap_congr
      intro field sorted
      obtain ⟨key, stored, mapped⟩ := mem_fields_iff.mp (List.mem_mergeSort.mp sorted)
      obtain ⟨target, named⟩ := Option.isSome_iff_exists.mp mapped
      obtain ⟨first, descriptor_eq⟩ := coherent.field stored
      have complete := (Table.checkDescriptors_eq_ok_iff.mp checked).1 _ key _ stored
      rw [fieldDeclaration?_eq coherent stored]
      cases descriptor? : key.descriptor with
      | none => simp [Field.lacksDescriptor, descriptor_eq, descriptor?, mapped] at complete
      | some descriptor =>
          simp [fieldRow?, row, tag, ownerCells, Path.cells, Names.cells_eq,
            Names.source_eq_first?, first, descriptor_eq, descriptor?, named]
  · apply List.filterMap_congr
    intro method sorted
    obtain ⟨key, stored, mapped⟩ := mem_methods_iff.mp (List.mem_mergeSort.mp sorted)
    obtain ⟨target, named⟩ := Option.isSome_iff_exists.mp mapped
    obtain ⟨first, descriptor_eq⟩ := coherent.method stored
    rw [methodDeclaration?_eq coherent stored]
    simp [methodRow?, row, tag, ownerCells, Path.cells, Names.cells_eq, Names.source_eq_first?,
      first, descriptor_eq, named]

-----------------------------------------------------------------------------------------
-- What is written can be read
-----------------------------------------------------------------------------------------

/-- An entry with a target name has its descriptor. -/
theorem Kept.path_readable (coherent : table.Coherent) (checked : table.checkDescriptors = .ok ())
    {declaration : Declaration 2} (kept : Kept table declaration)
    : declaration.path.Readable := by
  obtain ⟨fields, methods⟩ := Table.checkDescriptors_eq_ok_iff.mp checked
  obtain ⟨_, found, named⟩ := kept
  obtain ⟨path, names⟩ := declaration
  cases path with
  | cls | parameter => trivial
  | field owner key =>
      obtain ⟨field, stored, rfl⟩ := Option.map_eq_some_iff.mp found
      intro descriptor has empty
      have complete := fields owner key field stored
      simp [Field.lacksDescriptor, (coherent.field stored).2, has, empty, named] at complete
  | method owner key =>
      obtain ⟨method, stored, rfl⟩ := Option.map_eq_some_iff.mp found
      intro empty
      have complete := methods owner key method stored
      simp [Method.lacksDescriptor, Method.isMapped, (coherent.method stored).2, empty, named]
        at complete

/-- What is written for an entry can be told from its row. -/
theorem Kept.readable (coherent : table.Coherent) (plain : table.Plain)
    (checked : table.checkDescriptors = .ok ()) {declaration : Declaration 2}
    (kept : Kept table declaration)
    : declaration.Readable where
  path := kept.path_readable coherent checked
  fits := coherent.names_fit kept.2.1
  filled _ _ found := (plain.name kept.2.1 found).1

theorem tag_isWord {kind : Kind} (no_parameter : kind ≠ .parameter) : Text.IsWord (tag kind) := by
  cases kind with
  | cls => exact (by decide : Text.IsWord "CLASS")
  | field => exact (by decide : Text.IsWord "FIELD")
  | method => exact (by decide : Text.IsWord "METHOD")
  | parameter => exact absurd rfl no_parameter

theorem owner_isWord (coherent : table.Coherent) (plain : table.Plain) {path : Path}
    {names : Names 2 path.kind} (found : table.names? path = some names)
    : Text.IsWord path.owner.text := by
  obtain ⟨cls, stored⟩ := Table.exists_class?_of_names? found
  have class_found : table.names? (.cls path.owner) = some cls.names :=
    Option.map_eq_some_iff.mpr ⟨cls, stored, rfl⟩
  exact plain.name class_found ((Names.source_eq_first? _).trans (coherent.cls stored))

theorem Kept.row_isPlain (coherent : table.Coherent) (plain : table.Plain)
    {declaration : Declaration 2} (kept : Kept table declaration)
    : (row declaration).IsPlain where
  tag_ne := (tag_isWord kept.1).1
  plain cell member := by
    obtain ⟨no_parameter, found, _⟩ := kept
    have of_owner : ∀ cell ∈ ownerCells declaration.path, Text.IsPlain cell := by
      intro cell member
      have owner_plain := (owner_isWord coherent plain found).2
      obtain ⟨path, names⟩ := declaration
      cases path with
      | cls => simp [ownerCells] at member
      | field | method | parameter =>
          obtain rfl := List.mem_singleton.mp member
          exact owner_plain
    rcases List.mem_cons.mp member with rfl | member
    · exact (tag_isWord no_parameter).2
    · rcases List.mem_append.mp member with key_cell | name_cell
      · rcases List.mem_append.mp key_cell with owner_cell | key_cell
        · exact of_owner cell owner_cell
        · exact Path.isPlain_of_mem_cells (plain.hasPlainDescriptor coherent found) key_cell
      · exact Names.isPlain_of_mem_cells (fun _ _ named => plain.name found named) name_cell

theorem headerRow_isPlain {source target : String} (source_word : Text.IsWord source)
    (target_word : Text.IsWord target)
    : (headerRow source target).IsPlain where
  tag_ne := (by decide : Text.IsWord "v1").1
  plain cell member := by
    have cells : cell = "v1" ∨ cell = source ∨ cell = target := by
      simpa [headerRow] using member
    rcases cells with rfl | rfl | rfl
    · decide
    · exact source_word.2
    · exact target_word.2

/-- A written file is read as what was written. -/
theorem read_written (coherent : table.Coherent) (plain : table.Plain)
    (checked : table.checkDescriptors = .ok ()) {source target : String}
    (source_word : Text.IsWord source) (target_word : Text.IsWord target)
    : Format.flat.read 2
        (Row.renderAll (headerRow source target :: body table arrangement)).toUTF8
      = .ok ((Table.empty ⟨#v[source, target]⟩).declareAll (written table arrangement)) := by
  have header : headerRow source target = headerOf ⟨#v[source, target]⟩ := rfl
  have kept {declaration : Declaration 2} (member : declaration ∈ written table arrangement)
      : Kept table declaration :=
    (mem_written_iff coherent).mp member
  rw [body_eq coherent checked, header]
  apply read_rows (by decide)
  · simp [Labels.toList, source_word.1.symm, target_word.1.symm]
  · exact fun declaration member => (kept member).readable coherent plain checked
  · exact fun declaration member => (kept member).1
  · exact headerRow_isPlain source_word target_word
  · exact fun declaration member => (kept member).row_isPlain coherent plain

end Flat

end NameTables
