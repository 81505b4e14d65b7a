import NameTables.Format
import NameTables.Join
import NameTables.Proofs.Flat.Steps
import NameTables.Proofs.Nested.Steps
import NameTables.Proofs.Projection.Declared

/-! Where tables come from.
However a table is made, and whatever is done to it afterwards, its entries repeat their keys.
-/

namespace NameTables

variable {m n : Nat}

-----------------------------------------------------------------------------------------
-- Tables that are read
-----------------------------------------------------------------------------------------

/-- The key of an entry is made of the names on its record. -/
theorem Flat.Declares.fits {record : Record} {declared : Declaration n}
    (declares : Flat.Declares n record declared)
    : declared.path.Fits declared.names := by
  cases declares with
  | cls _ _ keyed => exact (Record.keyedNames_eq_ok_iff.mp keyed).2
  | field _ _ _ _ keyed => exact (Record.keyedNames_eq_ok_iff.mp keyed).2
  | method _ _ _ _ keyed => exact (Record.keyedNames_eq_ok_iff.mp keyed).2

theorem Nested.Declares.fits {owner : Option Path} {record : Record} {declared : Declaration n}
    (declares : Nested.Declares n owner record (some declared))
    : declared.path.Fits declared.names := by
  cases declares with
  | cls _ keyed => exact (Record.keyedNames_eq_ok_iff.mp keyed).2
  | field _ _ keyed => exact (Record.keyedNames_eq_ok_iff.mp keyed).2
  | method _ _ keyed => exact (Record.keyedNames_eq_ok_iff.mp keyed).2
  | parameter => trivial

/-- A declaration that fits its path keeps a table coherent. -/
theorem Table.Coherent.declare {table : Table n} (coherent : table.Coherent) (positive : 0 < n)
    {declared : Declaration n} (fits : declared.path.Fits declared.names)
    : (table.declare declared).Coherent := by
  have keeps : declared.edit.KeepsKey := fun _ _ => fits
  exact coherent.update positive keeps

namespace Flat

theorem read_coherent {lines : List Text.Line} {table : Table n} (done : read n lines = .ok table)
    : table.Coherent := by
  obtain ⟨enough, _, rest, _, labels, declarations, _, _, _, listed, rfl⟩ :=
    read_eq_ok_iff.mp done
  apply Table.declareAll_coherent labels (Nat.lt_of_lt_of_le Nat.zero_lt_two enough)
  intro declared member
  obtain ⟨_, _, _, _, declares⟩ := exists_mem_of_forall₂ listed member
  exact declares.fits

end Flat

namespace Nested

theorem step_coherent {progress progress' : Progress n} {line : Text.Line}
    (coherent : progress.table.Coherent) (positive : 0 < n)
    (done : step progress line = .ok progress')
    : progress'.table.Coherent := by
  obtain ⟨record, declared?, _, _, declares, rfl⟩ := step_eq_ok_iff.mp done
  cases declared? with
  | none => exact coherent
  | some declared => exact coherent.declare positive declares.fits

/-- Every step keeps the table coherent, and so does a run, by list induction. -/
theorem foldlM_step_coherent {progress progress' : Progress n} {lines : List Text.Line}
    (coherent : progress.table.Coherent) (positive : 0 < n)
    (done : lines.foldlM step progress = .ok progress')
    : progress'.table.Coherent := by
  induction lines generalizing progress with
  | nil =>
      obtain rfl := Except.ok.inj done
      exact coherent
  | cons line lines ih =>
      rw [List.foldlM_cons] at done
      obtain ⟨next, first, rest⟩ := Outcome.bind_eq_ok_iff.mp done
      exact ih (step_coherent coherent positive first) rest

theorem read_coherent {lines : List Text.Line} {table : Table n} (done : read n lines = .ok table)
    : table.Coherent := by
  obtain ⟨enough, _, _, _, labels, _, _, _, _, run, rfl⟩ := read_eq_ok_iff.mp done
  exact foldlM_step_coherent (Table.empty_coherent labels)
    (Nat.lt_of_lt_of_le Nat.zero_lt_two enough) run

end Nested

theorem Format.read_coherent {format : Format} {content : ByteArray} {table : Table n}
    (done : format.read n content = .ok table)
    : table.Coherent := by
  cases format with
  | flat => exact Flat.read_coherent done
  | nested => exact Nested.read_coherent done

-----------------------------------------------------------------------------------------
-- Tables that are made of others
-----------------------------------------------------------------------------------------

namespace Joining

variable (joining : Joining m n)

/-- Only the target is set. -/
theorem first?_assign {kind : Kind} (own : Name kind) (found : Option (Option (Name kind)))
    (names : Names 2 kind)
    : (joining.assign own found names).first? = names.first? := by
  unfold assign
  split
  · exact names.first?_setTarget _
  · rfl

/-- Whatever is joined, and however it is matched, keeps the name in its key. -/
theorem edit_keepsKey {entry : Entry m} {edit : Edit 2}
    (edited : joining.edit entry = .ok (some edit))
    : edit.KeepsKey := by
  cases entry with
  | cls cls =>
      obtain ⟨owner, _, same⟩ := Option.bind_eq_some_iff.mp (Except.ok.inj edited)
      obtain rfl := Option.some.inj same
      exact fun names fits => (joining.first?_assign _ _ names).trans fits
  | field owner field =>
      obtain ⟨key?, _, same⟩ := Outcome.bind_eq_ok_iff.mp edited
      obtain ⟨key, _, rfl⟩ := Option.map_eq_some_iff.mp (Except.ok.inj same)
      exact fun names fits => (joining.first?_assign _ _ names).trans fits
  | method owner method =>
      obtain ⟨key?, _, same⟩ := Outcome.bind_eq_ok_iff.mp edited
      obtain ⟨key, _, rfl⟩ := Option.map_eq_some_iff.mp (Except.ok.inj same)
      exact fun names fits => (joining.first?_assign _ _ names).trans fits
  | parameter => exact absurd (Except.ok.inj edited) (by simp)

end Joining

namespace Table

theorem joinWith_coherent {left : Table m} {right : Table n} {labels : JoinLabels}
    {source target : String} {unmatched : Unmatched} {result : Table 2}
    (done : left.joinWith right labels source target unmatched = .ok result)
    : result.Coherent := by
  simp only [joinWith, Outcome.bind_eq_ok_iff] at done
  obtain ⟨_, _, _, _, _, _, _, _, _, _, edits, edited, same⟩ := done
  obtain rfl := Except.ok.inj same
  apply (empty_coherent _).applyAll (by decide)
  intro edit member
  obtain ⟨_, among, rfl⟩ := List.mem_filterMap.mp member
  obtain ⟨entry, _, found⟩ := exists_mem_of_forall₂ (Outcome.mapM_eq_ok_iff.mp edited) among
  exact Joining.edit_keepsKey _ found

theorem project_coherent {table : Table n} {source target : String} {result : Table 2}
    (done : table.project source target = .ok result)
    : result.Coherent := by
  obtain ⟨_, _, _, _, _, _, rfl⟩ := project_eq_ok done
  exact projection_coherent

-----------------------------------------------------------------------------------------
-- Tables that are edited
-----------------------------------------------------------------------------------------

theorem Coherent.ensure {table : Table n} (coherent : table.Coherent) (positive : 0 < n)
    (path : Path)
    : (table.ensure path).Coherent := by
  have keeps : (Edit.mk (n := n) path id).KeepsKey := fun _ fits => fits
  exact coherent.update positive keeps

/-- The first name cannot be set, and a path that is made has it already. -/
theorem Coherent.rename {table : Table n} (coherent : table.Coherent) (positive : 0 < n)
    (path : Path) (i : Fin n) (name : Option (Name path.kind))
    : (table.rename path i name).1.Coherent := by
  have old : path.Fits ((table.names? path).getD (freshNames path)) := by
    cases h : table.names? path with
    | none => exact freshNames_fits positive path
    | some names => exact coherent.names_fit h
  unfold Table.rename
  dsimp only
  split
  · next previous names renamed =>
    have fits : path.Fits names := by
      have kept := Names.first?_of_rename renamed
      cases path with
      | cls | field | method => exact kept.trans old
      | parameter => trivial
    have keeps : (Edit.mk path fun _ => names).KeepsKey := fun _ _ => fits
    exact coherent.update positive keeps
  · exact coherent.ensure positive path

/-- The tables that can be had: the empty ones, those that are read from files, those that are made
of any others, and whatever editing leaves of them. An edit that fails may still make its path.
-/
inductive Made : {n : Nat} → Table n → Prop
  | empty {n : Nat} (labels : Labels n) : Made (Table.empty labels)
  | read {n : Nat} {format : Format} {content : ByteArray} {table : Table n}
    (done : format.read n content = .ok table)
    : Made table
  | project {n : Nat} {table : Table n} {source target : String} {result : Table 2}
    (done : table.project source target = .ok result)
    : Made result
  | join {m n : Nat} {left : Table m} {right : Table n} {labels : JoinLabels} {result : Table 2}
    (done : left.join right labels = .ok result)
    : Made result
  | joinShared {m n : Nat} {left : Table m} {right : Table n} {source target matching : String}
    {result : Table 2} (done : left.joinShared right source target matching = .ok result)
    : Made result
  | migrate {m n : Nat} {old : Table m} {new : Table n} {matching named source target : String}
    {result : Table 2} (done : old.migrate new matching named source target = .ok result)
    : Made result
  | ensure {n : Nat} {table : Table n} (made : Made table) (path : Path)
    : Made (table.ensure path)
  | rename {n : Nat} {table : Table n} (made : Made table) (path : Path) (i : Fin n)
    (name : Option (Name path.kind))
    : Made (table.rename path i name).1

/-- What the entries of one owner repeat of their keys is different for any two of them. -/
structure Distinct (table : Table n) : Prop where
  classes : (table.classes.values.map fun cls => cls.names.first?).Nodup
  fields
    : ∀ cls ∈ table.classes.values,
        (cls.fields.values.map fun field => (field.names.first?, field.descriptor)).Nodup
  methods
    : ∀ cls ∈ table.classes.values,
        (cls.methods.values.map fun method => (method.names.first?, method.descriptor)).Nodup
  parameters : ∀ method ∈ table.methods, (method.parameters.values.map Parameter.index).Nodup

theorem Coherent.distinct {table : Table n} (coherent : table.Coherent) : table.Distinct where
  classes := OrderedMap.nodup_map_values some (fun _ _ => Option.some.inj)
    fun _ _ stored => coherent.cls stored
  fields cls listed := by
    obtain ⟨owner, inside⟩ := OrderedMap.mem_values_iff.mp listed
    apply OrderedMap.nodup_map_values fun key => (some key.name, key.descriptor)
    · intro key key' same
      cases key
      cases key'
      simpa using same
    · intro key field stored
      obtain ⟨first, described⟩ :=
        coherent.field (Option.bind_eq_some_iff.mpr ⟨cls, inside, stored⟩)
      rw [first, described]
  methods cls listed := by
    obtain ⟨owner, inside⟩ := OrderedMap.mem_values_iff.mp listed
    apply OrderedMap.nodup_map_values fun key => (some key.name, key.descriptor)
    · intro key key' same
      cases key
      cases key'
      simpa using same
    · intro key method stored
      obtain ⟨first, described⟩ :=
        coherent.method (Option.bind_eq_some_iff.mpr ⟨cls, inside, stored⟩)
      rw [first, described]
  parameters method listed := by
    obtain ⟨owner, key, inside⟩ := mem_methods_iff.mp listed
    apply OrderedMap.nodup_map_values id Function.injective_id
    intro index parameter stored
    exact coherent.parameter (Option.bind_eq_some_iff.mpr ⟨method, inside, stored⟩)

/-- Every entry of a table repeats its key, and no two entries of one owner have the same, by
induction on how the table was made.
-/
theorem Made.coherent_distinct {table : Table n} (positive : 0 < n) (made : table.Made)
    : table.Coherent ∧ table.Distinct := by
  have coherent : table.Coherent := by
    induction made with
    | empty labels => exact empty_coherent labels
    | read done => exact Format.read_coherent done
    | project done => exact project_coherent done
    | join done => exact joinWith_coherent done
    | joinShared done => exact joinWith_coherent done
    | migrate done => exact joinWith_coherent done
    | ensure _ path ih => exact (ih positive).ensure positive path
    | rename _ path i name ih => exact (ih positive).rename positive path i name
  exact ⟨coherent, coherent.distinct⟩

/-- A flat file that names a member of a class without a line of its own. -/
def ownerlessField : ByteArray := "v1\tobf\tnamed\nFIELD\ta\tI\tf\tcount\n".toUTF8

/-- The class that the member made keeps its key when somebody tries to set another first name. -/
theorem made_ownerlessField
    : ∃ table edited : Table 2,
        Format.flat.read 2 ownerlessField = .ok table
        ∧ (table.ensure (.parameter ⟨"b"⟩ ⟨⟨"m"⟩, ⟨"()V"⟩⟩ 0)).rename (.cls ⟨"a"⟩) 0 (some ⟨"c"⟩)
            = (edited, .fail .firstNameFixed)
        ∧ edited.names? (.cls ⟨"a"⟩) = some (.pair (some ⟨"a"⟩) none)
        ∧ edited.Coherent ∧ edited.Distinct := by
  have done : Format.flat.read 2 ownerlessField
      = .ok ((Table.empty ⟨#v["obf", "named"]⟩).declareAll
          [⟨.field ⟨"a"⟩ ⟨⟨"f"⟩, some ⟨"I"⟩⟩, .pair (some ⟨"f"⟩) (some ⟨"count"⟩)⟩]) := by
    decide +kernel
  exact ⟨_, _, done, rfl, by decide, Made.coherent_distinct (by decide)
    (((Made.read done).ensure _).rename (.cls ⟨"a"⟩) 0 (some ⟨"c"⟩))⟩

end Table

end NameTables
