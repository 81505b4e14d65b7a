import NameTables.Format.Lacking
import NameTables.Proofs.Format.Cells
import NameTables.Proofs.OrderedMap

/-! Tables that can be written.
Names that are words and descriptors without tabs and line ends can be told from a file. A mapped
member without a descriptor is the one thing that a writer objects to.
-/

namespace NameTables

/-- The text is not empty, and it has no tab and no part of a line end. -/
def Text.IsWord (text : String) : Prop := text ≠ "" ∧ Text.IsPlain text

instance (text : String) : Decidable (Text.IsWord text) := inferInstanceAs (Decidable (_ ∧ _))

namespace Table

/-- Every name is a word, and descriptors are plain. -/
structure Plain {n : Nat} (table : Table n) : Prop where
  name
    : ∀ {path : Path} {names : Names n path.kind} {i : Fin n} {name : Name path.kind},
        table.names? path = some names
        → names.get i = some name → Text.IsWord name.text
  field
    : ∀ {owner : ClassName} {key : FieldKey} {field : Field n} {descriptor : Descriptor},
        table.field? owner key = some field
        → field.descriptor = some descriptor → Text.IsPlain descriptor.text
  method
    : ∀ {owner : ClassName} {key : MethodKey} {method : Method n},
        table.method? owner key = some method → Text.IsPlain method.descriptor.text

/-- The descriptor in the last key of a path is plain. -/
def HasPlainDescriptor : Path → Prop
  | .field _ key => ∀ descriptor ∈ key.descriptor, Text.IsPlain descriptor.text
  | .method _ key => Text.IsPlain key.descriptor.text
  | .cls _ => True
  | .parameter _ _ _ => True

instance (path : Path) : Decidable (HasPlainDescriptor path) :=
  match path with
  | .field _ key =>
      inferInstanceAs (Decidable (∀ descriptor ∈ key.descriptor, Text.IsPlain descriptor.text))
  | .method _ key => inferInstanceAs (Decidable (Text.IsPlain key.descriptor.text))
  | .cls _ => instDecidableTrue
  | .parameter _ _ _ => instDecidableTrue

/-- Declarations of words make a plain table. -/
theorem declareAll_plain {n : Nat} (labels : Labels n) (positive : 0 < n)
    {declarations : List (Declaration n)} (closed : OwnersDeclared declarations)
    (fit : ∀ declaration ∈ declarations, declaration.path.Fits declaration.names)
    (words
      : ∀ declaration ∈ declarations, ∀ slot ∈ declaration.names.toList, ∀ name ∈ slot,
          Text.IsWord name.text)
    (descriptors : ∀ declaration ∈ declarations, HasPlainDescriptor declaration.path)
    : ((Table.empty labels).declareAll declarations).Plain := by
  have described := (declareAll_coherent labels positive fit).described
  have declared {path : Path} {names : Names n path.kind}
      (found : ((Table.empty labels).declareAll declarations).names? path = some names)
      : ⟨path, names⟩ ∈ declarations := by
    rw [names?_declareAll labels closed] at found
    exact mem_of_lastDeclared? found
  constructor
  · intro path names i name found named
    have slot : some name ∈ names.toList := by
      rw [← named]
      exact Vector.mem_toList_iff.mpr (Vector.getElem_mem i.isLt)
    exact words _ (declared found) _ slot name rfl
  · intro owner key field descriptor stored has
    have at_path : ⟨.field owner key, field.names⟩ ∈ declarations :=
      declared (by rw [names?_field, stored]; rfl)
    rw [described.field stored] at has
    exact descriptors _ at_path descriptor has
  · intro owner key method stored
    have at_path : ⟨.method owner key, method.names⟩ ∈ declarations :=
      declared (by rw [names?_method, stored]; rfl)
    rw [described.method stored]
    exact descriptors _ at_path

/-- Descriptors stand in the keys of a coherent table. -/
theorem Plain.hasPlainDescriptor {n : Nat} {table : Table n} (plain : table.Plain)
    (coherent : table.Coherent) {path : Path} {names : Names n path.kind}
    (found : table.names? path = some names)
    : HasPlainDescriptor path := by
  cases path with
  | cls | parameter => trivial
  | field owner key =>
      obtain ⟨field, stored, _⟩ := Option.map_eq_some_iff.mp found
      intro descriptor has
      exact plain.field stored ((coherent.field stored).2.trans has)
  | method owner key =>
      obtain ⟨method, stored, _⟩ := Option.map_eq_some_iff.mp found
      have method_plain := plain.method stored
      rwa [(coherent.method stored).2] at method_plain

end Table

theorem isPlain_toString (number : Nat) : Text.IsPlain (toString number) := by
  intro c member
  have digit : c.isDigit = true := by
    rw [Nat.toString_eq_repr, Nat.toList_repr] at member
    exact Nat.isDigit_of_mem_toDigits (by decide) (by decide) member
  refine ⟨?_, ?_, ?_⟩ <;> rintro rfl <;> simp at digit

theorem Path.isPlain_of_mem_cells {path : Path} (plain : Table.HasPlainDescriptor path)
    {cell : String} (member : cell ∈ path.cells)
    : Text.IsPlain cell := by
  cases path with
  | cls owner => simp [cells] at member
  | field owner key =>
      obtain rfl := List.mem_singleton.mp member
      cases descriptor? : key.descriptor with
      | none => exact (by decide : Text.IsPlain "")
      | some descriptor => exact plain descriptor descriptor?
  | method owner key =>
      obtain rfl := List.mem_singleton.mp member
      exact plain
  | parameter owner key index =>
      obtain rfl := List.mem_singleton.mp member
      exact isPlain_toString index.toNat

theorem Names.isPlain_of_mem_cells {n : Nat} {kind : Kind} {names : Names n kind}
    (words : ∀ i name, names.get i = some name → Text.IsWord name.text) {cell : String}
    (member : cell ∈ names.cells)
    : Text.IsPlain cell := by
  rcases mem_cells member with rfl | ⟨i, name, found, rfl⟩
  · decide
  · exact (words i name found).2

/-- A field with a target name stays as it is. -/
def Field.normal? (field : Field 2) : Option (Field 2) :=
  if field.names.target.isSome then some field else none

-----------------------------------------------------------------------------------------
-- Descriptors that are there
-----------------------------------------------------------------------------------------

theorem Class.lackingDescriptor_eq_nil_iff {cls : Class 2}
    : cls.lackingDescriptor = []
      ↔ (∀ key field, cls.fields.get? key = some field → field.lacksDescriptor = false)
        ∧ ∀ key method, cls.methods.get? key = some method → method.lacksDescriptor = false := by
  simp only [lackingDescriptor, List.append_eq_nil_iff, List.map_eq_nil_iff,
    List.filter_eq_nil_iff, Bool.not_eq_true, OrderedMap.mem_values_iff, forall_exists_index]
  constructor
  · intro given
    rcases given with ⟨fields, methods⟩
    exact ⟨fun key field => fields field key, fun key method => methods method key⟩
  · intro given
    rcases given with ⟨fields, methods⟩
    exact ⟨fun field key => fields key field, fun method key => methods key method⟩

namespace Table

variable {table : Table 2}

theorem checkDescriptors_eq_ok_iff_lackingDescriptor
    : table.checkDescriptors = .ok ()
      ↔ ∀ owner cls, table.class? owner = some cls → cls.lackingDescriptor = [] := by
  unfold checkDescriptors
  dsimp only
  split
  · next none_lacking =>
    refine iff_of_true rfl fun owner cls stored => ?_
    simp only [List.flatMap_eq_nil_iff, List.map_eq_nil_iff, Prod.forall] at none_lacking
    exact none_lacking owner cls ((table.classes.get?_eq_some_iff owner cls).mp stored)
  · next owner name rest some_lacking =>
    refine iff_of_false (by simp) fun complete => ?_
    have lacking := List.mem_cons_self (a := (owner, name)) (l := rest)
    rw [← some_lacking] at lacking
    obtain ⟨⟨around, cls⟩, listed, inside⟩ := List.mem_flatMap.mp lacking
    obtain ⟨_, member, _⟩ := List.mem_map.mp inside
    rw [complete around cls ((table.classes.get?_eq_some_iff around cls).mpr listed)] at member
    simp at member

/-- Descriptors are in place when no mapped member lacks one. -/
theorem checkDescriptors_eq_ok_iff
    : table.checkDescriptors = .ok ()
      ↔ (∀ owner key field, table.field? owner key = some field → field.lacksDescriptor = false)
        ∧ ∀ owner key method,
            table.method? owner key = some method → method.lacksDescriptor = false := by
  rw [checkDescriptors_eq_ok_iff_lackingDescriptor]
  constructor
  · intro complete
    constructor
    · intro owner key field stored
      obtain ⟨cls, class_stored, listed⟩ := Option.bind_eq_some_iff.mp stored
      have here := complete owner cls class_stored
      exact (Class.lackingDescriptor_eq_nil_iff.mp here).1 key field listed
    · intro owner key method stored
      obtain ⟨cls, class_stored, listed⟩ := Option.bind_eq_some_iff.mp stored
      have here := complete owner cls class_stored
      exact (Class.lackingDescriptor_eq_nil_iff.mp here).2 key method listed
  · intro given owner cls stored
    rcases given with ⟨fields, methods⟩
    refine Class.lackingDescriptor_eq_nil_iff.mpr ⟨fun key field listed => ?_,
      fun key method listed => ?_⟩
    · exact fields owner key field (Option.bind_eq_some_iff.mpr ⟨cls, stored, listed⟩)
    · exact methods owner key method (Option.bind_eq_some_iff.mpr ⟨cls, stored, listed⟩)

end Table

end NameTables
