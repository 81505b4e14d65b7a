import NameTables.Proofs.Format.Records
import NameTables.Proofs.Format.Rows
import NameTables.Proofs.Table.Declarations

/-! Declarations in cells.
The names of an entry and what its key holds besides them are written cell by cell, in the same way
in both formats. An empty cell stands for what is absent, so they are read back if nothing that is
there is empty.
-/

namespace NameTables

variable {n : Nat}

/-- The texts of all names, empty where there is none. -/
def Names.cells {kind : Kind} (names : Names n kind) : List String :=
  names.texts.map fun text => text.getD ""

@[simp]
theorem Names.cells_pair {kind : Kind} (source target : Option (Name kind))
    : (pair source target).cells
      = [(source.map Name.text).getD "", (target.map Name.text).getD ""] := rfl

/-- Both names of an entry, empty where there is none. -/
theorem Names.cells_eq {kind : Kind} (names : Names 2 kind)
    : names.cells
      = [(names.source.map Name.text).getD "", (names.target.map Name.text).getD ""] := by
  have same : names = pair names.source names.target := eq_of_first?_of_target rfl rfl
  rw [same]
  rfl

/-- What is written of the last key in front of the names. -/
def Path.cells : Path → List String
  | .cls _ => []
  | .field _ key => [(key.descriptor.map Descriptor.text).getD ""]
  | .method _ key => [key.descriptor.text]
  | .parameter _ _ index => [toString index.toNat]

/-- No name is empty. -/
def Names.Filled {kind : Kind} (names : Names n kind) : Prop :=
  ∀ i name, names.get i = some name → name.text ≠ ""

/-- An absent name is told from one that is there by its empty cell. -/
theorem Names.exists_cells_eq {kind : Kind} {names : Names n kind} (filled : names.Filled)
    : ∃ texts : Vector String n, names.cells = texts.toList ∧ names = .ofTexts texts := by
  refine ⟨names.slots.map fun slot => (slot.map Name.text).getD "", ?_, ?_⟩
  · simp [cells, texts, toList, Vector.toList_map, Function.comp_def]
  · apply ext_get
    intro i
    cases slot : names.get i with
    | none =>
        have at_slot : names.slots[i.val] = none := slot
        simp [get, ofTexts, at_slot]
    | some name =>
        have at_slot : names.slots[i.val] = some name := slot
        have nonempty := filled i name slot
        simp [get, ofTexts, at_slot, nonempty]

/-- Names that are read from texts are written as these texts. -/
theorem Names.cells_ofTexts {kind : Kind} (texts : Vector String n)
    : (ofTexts texts : Names n kind).cells = texts.toList := by
  simp only [cells, Names.texts, toList, ofTexts, Vector.toList_map, List.map_map]
  rw [List.map_congr_left, List.map_id]
  intro text _
  by_cases empty : text = "" <;> simp [empty]

theorem Names.filled_ofTexts {kind : Kind} (texts : Vector String n)
    : (ofTexts texts : Names n kind).Filled := by
  intro i name found
  have here : (if texts[i] = "" then none else some ⟨texts[i]⟩) = some name := by
    simpa [get, ofTexts] using found
  obtain ⟨nonempty, same⟩ := Option.ite_none_left_eq_some.mp here
  obtain rfl := Option.some.inj same
  exact nonempty

theorem Names.exists_get_of_mem_toList {kind : Kind} {names : Names n kind}
    {slot : Option (Name kind)} (listed : slot ∈ names.toList)
    : ∃ i, names.get i = slot := by
  obtain ⟨i, within_n, at_slot⟩ := Vector.getElem_of_mem (Vector.mem_toList_iff.mp listed)
  exact ⟨⟨i, within_n⟩, at_slot⟩

/-- A cell is empty or holds one of the names. -/
theorem Names.mem_cells {kind : Kind} {names : Names n kind} {cell : String}
    (member : cell ∈ names.cells)
    : cell = "" ∨ ∃ i name, names.get i = some name ∧ cell = name.text := by
  simp only [cells, texts, List.map_map, List.mem_map, Function.comp_apply] at member
  obtain ⟨slot, listed, rfl⟩ := member
  cases slot with
  | none => exact Or.inl rfl
  | some name =>
      obtain ⟨i, found⟩ := exists_get_of_mem_toList listed
      exact Or.inr ⟨i, name, found, rfl⟩

/-- A descriptor that is there is not empty. The one of a method must be there. -/
def Path.Readable : Path → Prop
  | .field _ key => ∀ descriptor, key.descriptor = some descriptor → descriptor.text ≠ ""
  | .method _ key => key.descriptor.text ≠ ""
  | _ => True

/-- The declaration can be told from its row. -/
structure Declaration.Readable (declaration : Declaration n) : Prop where
  path : declaration.path.Readable
  fits : declaration.path.Fits declaration.names
  filled : declaration.names.Filled

-----------------------------------------------------------------------------------------
-- Taking cells back
-----------------------------------------------------------------------------------------

/-- The record on the first line of a file of rows is the first row. -/
theorem Row.toRow_of_lines_eq {row : Row} {rows : List Row} {first : Text.Line}
    {rest : List Text.Line} {record : Record} (writable : row.Writable)
    (lines_eq : lines (row :: rows) = first :: rest) (decoded : first.record = .ok record)
    : record.toRow = row := by
  obtain ⟨rfl, _⟩ := List.cons.inj lines_eq
  obtain ⟨text, spelled, rfl⟩ := Text.Line.record_eq_ok_iff.mp decoded
  obtain rfl := Option.some.inj spelled
  exact parse_render writable

namespace Record

variable {record : Record} {rest : List String} {kind : Kind} {names : Names n kind}

theorem take_cons {field : String} (fields : record.fields = field :: rest)
    : record.take = .ok (field, { record with fields := rest }) :=
  take_eq_ok_iff.mpr ⟨fields, rfl⟩

theorem takeFieldDescriptor_cell {descriptor? : Option Descriptor}
    (filled : ∀ descriptor, descriptor? = some descriptor → descriptor.text ≠ "")
    (fields : record.fields = (descriptor?.map Descriptor.text).getD "" :: rest)
    : record.takeFieldDescriptor = .ok (descriptor?, { record with fields := rest }) := by
  refine takeFieldDescriptor_eq_ok_iff.mpr ⟨_, take_cons fields, ?_⟩
  cases descriptor? with
  | none => simp
  | some descriptor => simp [filled descriptor rfl]

theorem takeMethodDescriptor_cell {descriptor : Descriptor} (filled : descriptor.text ≠ "")
    (fields : record.fields = descriptor.text :: rest)
    : record.takeMethodDescriptor = .ok (descriptor, { record with fields := rest }) :=
  takeMethodDescriptor_eq_ok_iff.mpr ⟨take_cons fields, filled⟩

theorem names_cells (filled : names.Filled) (fields : record.fields = names.cells)
    : record.names n kind = .ok names := by
  obtain ⟨texts, cells, names_eq⟩ := Names.exists_cells_eq filled
  exact names_eq_ok_iff.mpr ⟨texts, fields.trans cells, names_eq⟩

theorem keyedNames_cells {name : Name kind} (filled : names.Filled)
    (first : names.first? = some name) (fields : record.fields = names.cells)
    : record.keyedNames n kind = .ok (name, names) :=
  keyedNames_eq_ok_iff.mpr ⟨names_cells filled fields, first⟩

end Record

end NameTables
