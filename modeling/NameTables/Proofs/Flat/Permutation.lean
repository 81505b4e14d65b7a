import Mathlib
import NameTables.Proofs.Format.Legible
import NameTables.Proofs.Table.Agreement
import NameTables.Proofs.Table.Origins

/-! Flat files in another order.
A line below the header is read by itself, whatever its number. When no two lines are about one
entry, they can come in any order: the line of a member makes its class, and the line of the class
names it, before or after that.
-/

namespace NameTables

variable {n : Nat}

-----------------------------------------------------------------------------------------
-- Declarations in another order
-----------------------------------------------------------------------------------------

section

variable {declarations declarations' : List (Declaration n)}
  (nodup : (declarations.map Declaration.path).Nodup)
  (permuted : declarations'.Perm declarations)

include nodup permuted

/-- Where no path is declared twice, every declaration is the last one of its path. -/
theorem lastDeclared?_perm (path : Path)
    : lastDeclared? declarations' path = lastDeclared? declarations path := by
  have nodup' : (declarations'.map Declaration.path).Nodup :=
    (permuted.map Declaration.path).nodup_iff.mpr nodup
  apply Option.ext
  intro names
  rw [lastDeclared?_eq_some_iff nodup', lastDeclared?_eq_some_iff nodup, permuted.mem_iff]

/-- The classes that members make are the same ones as well. -/
theorem Table.names?_declareAll_perm (labels : Labels n) (path : Path)
    : ((Table.empty labels).declareAll declarations').names? path
      = ((Table.empty labels).declareAll declarations).names? path := by
  rw [names?_declareAll_eq_ite, names?_declareAll_eq_ite, lastDeclared?_perm nodup permuted]
  simp only [permuted.mem_iff]

end

namespace Flat

-----------------------------------------------------------------------------------------
-- Lines without their numbers
-----------------------------------------------------------------------------------------

/-- The texts of the lines that are not empty. -/
def filledTexts (content : ByteArray) : List (Option String) :=
  ((Text.Line.ofContent content).filter (·.text ≠ some "")).map Text.Line.text

/-- The line is the row of a declaration. -/
def Spells (text : String) (declaration : Declaration n) : Prop :=
  Row.parse text = row declaration ∧ declaration.Readable ∧ declaration.path.kind ≠ .parameter

theorem exists_declares_iff {line : Text.Line} {text : String} {declaration : Declaration n}
    (decoded : line.text = some text)
    : (∃ record, line.record = .ok record ∧ Declares n record declaration)
      ↔ Spells text declaration := by
  have record_eq : line.record = .ok { Row.parse text with line := line.number } :=
    line.record_eq_ok_iff.mpr ⟨text, decoded, rfl⟩
  constructor
  · intro given
    rcases given with ⟨record, same, declares⟩
    obtain rfl := Except.ok.inj (record_eq.symm.trans same)
    exact declares.toRow_eq
  · intro spells
    exact ⟨_, record_eq, declares_row spells.2.1 spells.2.2 spells.1⟩

theorem listed_iff {lines : List Text.Line} {texts : List String}
    {declarations : List (Declaration n)} (decoded : lines.map Text.Line.text = texts.map some)
    : Listed lines declarations ↔ List.Forall₂ Spells texts declarations := by
  induction texts generalizing lines declarations with
  | nil =>
      obtain rfl := List.map_eq_nil_iff.mp decoded
      simp [Listed]
  | cons text texts ih =>
      obtain ⟨line, lines, rfl, first, rest⟩ := List.map_eq_cons_iff.mp decoded
      rw [Listed, List.forall₂_cons_left_iff, List.forall₂_cons_left_iff]
      simp only [exists_declares_iff first, ← ih rest, Listed]

/-- What is read is told by the texts of the lines. -/
theorem read_eq_ok_iff_of_filledTexts {content : ByteArray} {header : String}
    {records : List String} {table : Table n}
    (lines : filledTexts content = (header :: records).map some)
    : Format.flat.read n content = .ok table
      ↔ 2 ≤ n ∧ ∃ labels declarations,
          ((Row.parse header).tag = "v1" ∧ (Row.parse header).fields = labels.toList
            ∧ "" ∉ labels.toList)
          ∧ List.Forall₂ Spells records declarations
          ∧ table = (Table.empty labels).declareAll declarations := by
  have whole : Format.flat.read n content = read n (Text.Line.ofContent content) := rfl
  obtain ⟨first, rest, filled, first_text, rest_texts⟩ := List.map_eq_cons_iff.mp lines
  have first_record : first.record = .ok { Row.parse header with line := first.number } :=
    first.record_eq_ok_iff.mpr ⟨header, first_text, rfl⟩
  rw [whole, read_eq_ok_iff]
  constructor
  · intro given
    rcases given with
      ⟨enough, _, _, record, labels, declarations, same, decoded, labelled, listed, rfl⟩
    obtain ⟨rfl, rfl⟩ := List.cons.inj (filled.symm.trans same)
    obtain rfl := Except.ok.inj (first_record.symm.trans decoded)
    exact ⟨enough, labels, declarations, headerLabels_eq_ok_iff.mp labelled,
      (listed_iff rest_texts).mp listed, rfl⟩
  · intro given
    rcases given with ⟨enough, labels, declarations, labelled, listed, rfl⟩
    exact ⟨enough, first, rest, _, labels, declarations, filled, first_record,
      headerLabels_eq_ok_iff.mpr labelled, (listed_iff rest_texts).mpr listed, rfl⟩

-----------------------------------------------------------------------------------------
-- Lines about different entries
-----------------------------------------------------------------------------------------

/-- What tells from a line which entry it is about: its tag, and the first name of a class, or the
owner, the descriptor and the first name of a member.
-/
def recordKey (text : String) : String × List String :=
  let row := Row.parse text
  (row.tag, row.fields.take (if row.tag = "CLASS" then 1 else 3))

/-- The cells in front of the other names of an entry. -/
def keyCells : Path → List String
  | .cls owner => [owner.text]
  | .field owner key => [owner.text, (key.descriptor.map Descriptor.text).getD "", key.name.text]
  | .method owner key => [owner.text, key.descriptor.text, key.name.text]
  | .parameter _ _ _ => []

/-- The first name stands in front of the others. -/
theorem exists_cells_eq_cons {kind : Kind} {names : Names n kind} {name : Name kind}
    (first : names.first? = some name)
    : ∃ rest, names.cells = name.text :: rest := by
  have slot : names.slots.toList.head? = some (some name) := by
    rw [List.head?_eq_getElem?, Vector.getElem?_toList]
    exact Option.join_eq_some_iff.mp first
  obtain ⟨rest, slots_eq⟩ := List.head?_eq_some_iff.mp slot
  rw [Names.cells, Names.texts, Names.toList, slots_eq]
  exact ⟨_, rfl⟩

theorem Spells.recordKey_eq {text : String} {declaration : Declaration n}
    (spells : Spells text declaration)
    : recordKey text = (tag declaration.path.kind, keyCells declaration.path) := by
  obtain ⟨same, readable, no_parameter⟩ := spells
  obtain ⟨path, names⟩ := declaration
  have fits := readable.fits
  rw [recordKey, same]
  cases path with
  | cls owner =>
      obtain ⟨rest, cells⟩ := exists_cells_eq_cons fits
      simp [row, tag, ownerCells, Path.cells, keyCells, cells]
  | field owner key =>
      obtain ⟨rest, cells⟩ := exists_cells_eq_cons fits
      simp [row, tag, ownerCells, Path.cells, keyCells, cells]
  | method owner key =>
      obtain ⟨rest, cells⟩ := exists_cells_eq_cons fits
      simp [row, tag, ownerCells, Path.cells, keyCells, cells]
  | parameter => exact absurd rfl no_parameter

/-- Lines about different entries declare different paths. -/
theorem nodup_path_of_spells {records : List String} {declarations : List (Declaration n)}
    (apart : (records.map recordKey).Nodup)
    (spelled : List.Forall₂ Spells records declarations)
    : (declarations.map Declaration.path).Nodup := by
  have keys_eq : records.map recordKey
      = (declarations.map Declaration.path).map fun path => (tag path.kind, keyCells path) := by
    rw [List.map_map, ← List.forall₂_eq_eq_eq, List.forall₂_map_left_iff,
      List.forall₂_map_right_iff]
    exact spelled.imp fun _ _ spells => spells.recordKey_eq
  rw [keys_eq] at apart
  exact apart.of_map

-----------------------------------------------------------------------------------------
-- Whole files
-----------------------------------------------------------------------------------------

/-- A file whose records are about different entries can have them in any order. It is read to a
table that agrees, and in both every record finds its own names, whether the line of the class comes
first, last or not at all.
-/
theorem read_perm {content content' : ByteArray} {header : String} {records records' : List String}
    (lines : filledTexts content = (header :: records).map some)
    (lines' : filledTexts content' = (header :: records').map some)
    (apart : (records.map recordKey).Nodup) (permuted : records'.Perm records) {table : Table n}
    (accepted : Format.flat.read n content = .ok table)
    : ∃ table',
        Format.flat.read n content' = .ok table'
        ∧ table'.agree table = true
        ∧ ∀ text ∈ records, ∃ declaration : Declaration n,
            Spells text declaration
            ∧ table.names? declaration.path = some declaration.names
            ∧ table'.names? declaration.path = some declaration.names := by
  have coherent := Format.read_coherent accepted
  obtain ⟨enough, labels, declarations, labelled, spelled, rfl⟩ :=
    (read_eq_ok_iff_of_filledTexts lines).mp accepted
  obtain ⟨declarations', spelled', permuted'⟩ :
      ∃ declarations', List.Forall₂ Spells records' declarations'
        ∧ declarations'.Perm declarations :=
    List.perm_comp_forall₂ permuted spelled
  have accepted' : Format.flat.read n content' = .ok _ :=
    (read_eq_ok_iff_of_filledTexts lines').mpr ⟨enough, labels, _, labelled, spelled', rfl⟩
  have nodup := nodup_path_of_spells apart spelled
  have names_eq := Table.names?_declareAll_perm nodup permuted' labels
  refine ⟨_, accepted', ?_, ?_⟩
  · apply (Format.read_coherent accepted').agree_of_names? coherent _ names_eq
    rw [Table.labels_declareAll, Table.labels_declareAll]
  · intro text listed
    obtain ⟨declaration, member, spells⟩ := exists_mem_of_forall₂ spelled.flip listed
    have last : lastDeclared? declarations declaration.path = some declaration.names :=
      (lastDeclared?_eq_some_iff nodup).mpr member
    have found : ((Table.empty labels).declareAll declarations).names? declaration.path
        = some declaration.names := by
      rw [Table.names?_declareAll_eq_ite, if_pos ⟨_, member, Path.reaches_self _⟩, last]
      rfl
    exact ⟨declaration, spells, found, (names_eq _).trans found⟩

/-- Members in front of the line of their class, behind it, and of a class without a line. -/
def ownersLate : ByteArray :=
  ("v1\tofficial\tnamed\nFIELD\ta\tI\tx\tcount\nMETHOD\tb\t()V\tm\trun\nCLASS\ta\tHello\n"
    ++ "FIELD\ta\t\tx\tlabel\nMETHOD\tb\t(I)V\tm\t").toUTF8

/-- Those lines in another order, with another line ending and an empty line between them. -/
def ownersEarly : ByteArray :=
  ("v1\tofficial\tnamed\r\nMETHOD\tb\t(I)V\tm\t\r\n\r\nCLASS\ta\tHello\r\n"
    ++ "METHOD\tb\t()V\tm\trun\nFIELD\ta\t\tx\tlabel\nFIELD\ta\tI\tx\tcount\n").toUTF8

/-- The records of those files, in the order of the first one. -/
def lateRecords : List String :=
  ["FIELD\ta\tI\tx\tcount", "METHOD\tb\t()V\tm\trun", "CLASS\ta\tHello",
    "FIELD\ta\t\tx\tlabel", "METHOD\tb\t(I)V\tm\t"]

/-- They are about different entries, so the second file agrees with the first one. The classes come
in another order, and the one that is made by a member keeps its name.
-/
theorem read_perm_ownersLate
    : (lateRecords.map recordKey).Nodup
      ∧ ∃ (records' : List String) (table table' : Table 2),
          filledTexts ownersLate = ("v1\tofficial\tnamed" :: lateRecords).map some
          ∧ filledTexts ownersEarly = ("v1\tofficial\tnamed" :: records').map some
          ∧ records'.Perm lateRecords
          ∧ Format.flat.read 2 ownersLate = .ok table
          ∧ Format.flat.read 2 ownersEarly = .ok table'
          ∧ table'.agree table = true
          ∧ table.classes.keys = [⟨"a"⟩, ⟨"b"⟩]
          ∧ table'.classes.keys = [⟨"b"⟩, ⟨"a"⟩]
          ∧ table'.names? (.cls ⟨"a"⟩) = some (.pair (some ⟨"a"⟩) (some ⟨"Hello"⟩)) := by
  have apart : (lateRecords.map recordKey).Nodup := by decide +kernel
  have lines : filledTexts ownersLate = ("v1\tofficial\tnamed" :: lateRecords).map some := by
    decide +kernel
  have lines' : filledTexts ownersEarly
      = ("v1\tofficial\tnamed"
          :: ["METHOD\tb\t(I)V\tm\t", "CLASS\ta\tHello", "METHOD\tb\t()V\tm\trun",
            "FIELD\ta\t\tx\tlabel", "FIELD\ta\tI\tx\tcount"]).map some := by
    decide +kernel
  have accepted : Format.flat.read 2 ownersLate
      = .ok ((Table.empty ⟨#v["official", "named"]⟩).declareAll
          [⟨.field ⟨"a"⟩ ⟨⟨"x"⟩, some ⟨"I"⟩⟩, .pair (some ⟨"x"⟩) (some ⟨"count"⟩)⟩,
            ⟨.method ⟨"b"⟩ ⟨⟨"m"⟩, ⟨"()V"⟩⟩, .pair (some ⟨"m"⟩) (some ⟨"run"⟩)⟩,
            ⟨.cls ⟨"a"⟩, .pair (some ⟨"a"⟩) (some ⟨"Hello"⟩)⟩,
            ⟨.field ⟨"a"⟩ ⟨⟨"x"⟩, none⟩, .pair (some ⟨"x"⟩) (some ⟨"label"⟩)⟩,
            ⟨.method ⟨"b"⟩ ⟨⟨"m"⟩, ⟨"(I)V"⟩⟩, .pair (some ⟨"m"⟩) none⟩]) := by
    decide +kernel
  have accepted' : Format.flat.read 2 ownersEarly
      = .ok ((Table.empty ⟨#v["official", "named"]⟩).declareAll
          [⟨.method ⟨"b"⟩ ⟨⟨"m"⟩, ⟨"(I)V"⟩⟩, .pair (some ⟨"m"⟩) none⟩,
            ⟨.cls ⟨"a"⟩, .pair (some ⟨"a"⟩) (some ⟨"Hello"⟩)⟩,
            ⟨.method ⟨"b"⟩ ⟨⟨"m"⟩, ⟨"()V"⟩⟩, .pair (some ⟨"m"⟩) (some ⟨"run"⟩)⟩,
            ⟨.field ⟨"a"⟩ ⟨⟨"x"⟩, none⟩, .pair (some ⟨"x"⟩) (some ⟨"label"⟩)⟩,
            ⟨.field ⟨"a"⟩ ⟨⟨"x"⟩, some ⟨"I"⟩⟩, .pair (some ⟨"x"⟩) (some ⟨"count"⟩)⟩]) := by
    decide +kernel
  obtain ⟨table', read', agree, _⟩ := read_perm lines lines' apart (by decide +kernel) accepted
  obtain rfl := Except.ok.inj (accepted'.symm.trans read')
  exact ⟨apart, _, _, _, lines, lines', by decide +kernel, accepted, accepted', agree, by decide,
    by decide, by decide⟩

end Flat

end NameTables
