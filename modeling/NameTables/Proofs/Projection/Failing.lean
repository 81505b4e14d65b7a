import Mathlib.Data.List.Basic
import NameTables.Proofs.Join.Failing
import NameTables.Proofs.Projection.Declared

/-! When a projection fails.
The two namespaces are looked up first, then the labels of the result are checked, and then the
entries are taken in their order. An entry stops the projection with an open descriptor, or with an
empty name of a parameter that would be kept.
-/

namespace NameTables

variable {n : Nat}

-----------------------------------------------------------------------------------------
-- Entries at fault
-----------------------------------------------------------------------------------------

theorem Names.ofPair_eq_error_iff {kind : Kind} {source target : Option (Name kind)}
    {failure : Failure}
    : ofPair source target = .error failure
      ↔ (source = some ⟨""⟩ ∨ target = some ⟨""⟩)
        ∧ failure = .of (.emptyName kind [source.map Name.text, target.map Name.text]) := by
  by_cases empty : source = some ⟨""⟩ ∨ target = some ⟨""⟩
  · have listed : some "" ∈ [source.map Name.text, target.map Name.text] := by
      rcases empty with rfl | rfl <;> simp
    have fails : ofPair source target
        = .fail (.emptyName kind [source.map Name.text, target.map Name.text]) := if_pos listed
    rw [fails, and_iff_right empty]
    exact ⟨fun same => (Except.error.inj same).symm, fun same => same ▸ rfl⟩
  · have made := ofPair_eq_ok_iff.mpr ⟨not_or.mp empty, rfl⟩
    simp [made, empty]

/-- (Entry.FaultAt source target entry failure) says how an entry stops a projection. What is wrong
with a method stops its parameters as well, but the method comes first.
-/
inductive Entry.FaultAt (source target : Fin n) : Entry n → Failure → Prop
  | openReference {entry activity descriptor}
    (described : entry.described? source = some (activity, descriptor))
    (opened : descriptor.Open)
    : FaultAt source target entry (.ofOpen activity descriptor)
  | ofMethod {owner method parameter failure}
    (fault : FaultAt source target (.method owner method) failure)
    : FaultAt source target (.parameter owner method parameter) failure
  | emptyName {owner method parameter}
    (owned : (owner.names.get source).isSome = true)
    (named : (method.names.get source).isSome = true) (closed : method.descriptor.Closed)
    (empty
      : parameter.names.get source = some ⟨""⟩ ∨ parameter.names.get target = some ⟨""⟩)
    : FaultAt source target (.parameter owner method parameter)
        (.of (.emptyName .parameter
          [(parameter.names.get source).map Name.text,
            (parameter.names.get target).map Name.text]))

theorem Entry.projected_method_eq_error_iff {rekey : Rekey n} {target : Fin n} {owner : Class n}
    {method : Method n} {failure : Failure}
    : (Entry.method owner method).projected rekey target = .error failure
      ↔ ∃ member ∈ (Entry.method owner method).described? rekey.column,
          member.2.Open ∧ failure = .ofOpen member.1 member.2 := by
  rw [← Rekey.methodKey_eq_error_iff, projected, Outcome.bind_eq_error_iff]
  simp [Pure.pure, Except.pure]

/-- A parameter stops with its method, and with its own names only if the method has a key. -/
theorem Entry.projected_parameter_eq_error_iff {rekey : Rekey n} {target : Fin n}
    {owner : Class n} {method : Method n} {parameter : Parameter n} {failure : Failure}
    : (Entry.parameter owner method parameter).projected rekey target = .error failure
      ↔ (Entry.method owner method).projected rekey target = .error failure
        ∨ (owner.names.get rekey.column).isSome = true
          ∧ (method.names.get rekey.column).isSome = true
          ∧ method.descriptor.Closed
          ∧ Names.ofPair (parameter.names.get rekey.column) (parameter.names.get target)
            = .error failure := by
  rw [projected_method_eq_error_iff, projected, Outcome.bind_eq_error_iff,
    Rekey.methodKey_eq_error_iff]
  refine or_congr_right ?_
  simp only [Rekey.methodKey_eq_ok_iff]
  cases owned : owner.names.get rekey.column with
  | none => simp [Pure.pure, Except.pure]
  | some ownerName =>
      cases named : method.names.get rekey.column with
      | none => simp [Rekey.methodKey?, named, Pure.pure, Except.pure]
      | some name =>
          simp [Rekey.methodKey?, named, Outcome.bind_eq_error_iff, Pure.pure, Except.pure]

theorem Entry.projected_eq_error_iff {rekey : Rekey n} {target : Fin n} {entry : Entry n}
    {failure : Failure}
    : entry.projected rekey target = .error failure
      ↔ entry.FaultAt rekey.column target failure := by
  cases entry with
  | cls cls =>
      constructor
      · intro fails
        cases fails
      · intro fault
        cases fault with
        | openReference described => cases described
  | field owner field =>
      rw [projected, Outcome.bind_eq_error_iff, Rekey.fieldKey_eq_error_iff]
      constructor
      · intro given
        rcases given with ⟨⟨activity, descriptor⟩, described, opened, rfl⟩ | ⟨_, _, returned⟩
        · exact .openReference described opened
        · cases returned
      · intro fault
        cases fault with
        | openReference described opened => exact Or.inl ⟨_, described, opened, rfl⟩
  | method owner method =>
      rw [projected_method_eq_error_iff]
      constructor
      · intro given
        rcases given with ⟨⟨activity, descriptor⟩, described, opened, rfl⟩
        exact .openReference described opened
      · intro fault
        cases fault with
        | openReference described opened => exact ⟨_, described, opened, rfl⟩
  | parameter owner method parameter =>
      rw [projected_parameter_eq_error_iff, projected_method_eq_error_iff,
        Names.ofPair_eq_error_iff]
      constructor
      · intro given
        rcases given with
          ⟨⟨activity, descriptor⟩, described, opened, rfl⟩ | ⟨owned, named, closed, empty, rfl⟩
        · exact .ofMethod (.openReference described opened)
        · exact .emptyName owned named closed empty
      · intro fault
        cases fault with
        | openReference described => cases described
        | ofMethod fault =>
            cases fault with
            | openReference described opened => exact Or.inl ⟨_, described, opened, rfl⟩
        | emptyName owned named closed empty =>
            exact Or.inr ⟨owned, named, closed, empty, rfl⟩

/-- An entry that is not at fault is projected. -/
theorem Entry.exists_projected_iff {rekey : Rekey n} {target : Fin n} {entry : Entry n}
    : (∃ declared?, entry.projected rekey target = .ok declared?)
      ↔ ∀ failure, ¬entry.FaultAt rekey.column target failure := by
  simp only [← projected_eq_error_iff]
  cases entry.projected rekey target <;> simp

-----------------------------------------------------------------------------------------
-- Whole projections
-----------------------------------------------------------------------------------------

/-- (table.ProjectFails source target failure) says how a projection fails. No entry has a say in it
unless both labels are found and neither is empty, and then the first one at fault does.
-/
inductive Table.ProjectFails (table : Table n) (source target : String) : Failure → Prop
  | unresolved {label}
    (first : [source, target].find? (fun label => label ∉ table.labels.toList) = some label)
    : ProjectFails table source target (.of (.unknownLabel label table.labels.toList))
  | emptyLabel
    (resolved : ∀ label ∈ [source, target], label ∈ table.labels.toList)
    (empty : source = "" ∨ target = "")
    : ProjectFails table source target (.of (.emptyLabel [source, target]))
  | entry {sourceColumn targetColumn before entry after failure}
    (found_source : table.labels.find? source = some sourceColumn)
    (found_target : table.labels.find? target = some targetColumn)
    (filled : source ≠ "" ∧ target ≠ "")
    (split : table.entries = before ++ entry :: after)
    (fine : ∀ earlier ∈ before, ∀ failure, ¬earlier.FaultAt sourceColumn targetColumn failure)
    (fault : entry.FaultAt sourceColumn targetColumn failure)
    : ProjectFails table source target failure

namespace Table

variable {table : Table n} {source target : String} {failure : Failure}

/-- The first label that is not found stops a projection, whatever the entries are. -/
theorem project_eq_fail_of_find? {label : String}
    (first : [source, target].find? (fun label => label ∉ table.labels.toList) = some label)
    : table.project source target = .fail (.unknownLabel label table.labels.toList) := by
  simp only [List.find?_cons] at first
  split at first
  · next unknown =>
    cases first
    rw [project, Labels.resolve_eq_fail (of_decide_eq_true unknown)]
    rfl
  · next known =>
    obtain ⟨column, found⟩ : ∃ i, table.labels.resolve source = .ok i :=
      Labels.exists_resolve (by simpa using known)
    split at first
    · next unknown =>
      cases first
      rw [project, found, Labels.resolve_eq_fail (of_decide_eq_true unknown)]
      rfl
    · cases first

/-- With its labels found, a projection fails for an empty one or at an entry. -/
theorem project_eq_error_iff_of_found {sourceColumn targetColumn : Fin n}
    (found_source : table.labels.find? source = some sourceColumn)
    (found_target : table.labels.find? target = some targetColumn)
    : table.project source target = .error failure
      ↔ (source = "" ∨ target = "") ∧ failure = .of (.emptyLabel [source, target])
        ∨ (source ≠ "" ∧ target ≠ "") ∧ ∃ before entry after,
            table.entries = before ++ entry :: after
            ∧ (∀ earlier ∈ before, ∀ failure, ¬earlier.FaultAt sourceColumn targetColumn failure)
            ∧ entry.FaultAt sourceColumn targetColumn failure := by
  have resolved_source := Labels.resolve_eq_ok_iff.mpr found_source
  have resolved_target := Labels.resolve_eq_ok_iff.mpr found_target
  have run : table.project source target
      = (do
          let labels ← Labels.pair source target
          let declarations ←
            table.entries.mapM (Entry.projected (.ofTable table sourceColumn) targetColumn)
          return (Table.empty labels).declareAll (declarations.filterMap id)) := by
    rw [project, resolved_source, resolved_target]
    rfl
  have column_eq : (Rekey.ofTable table sourceColumn).column = sourceColumn := rfl
  rw [run, Outcome.bind_eq_error_iff, Labels.pair_eq_error_iff]
  simp only [Outcome.bind_eq_error_iff, Labels.pair_eq_ok_iff, Outcome.mapM_eq_error_iff,
    Entry.exists_projected_iff, Entry.projected_eq_error_iff, column_eq]
  constructor
  · intro given
    rcases given with empty | ⟨_, ⟨filled, _⟩, stops | ⟨_, _, returned⟩⟩
    · exact Or.inl empty
    · exact Or.inr ⟨filled, stops⟩
    · cases returned
  · intro given
    rcases given with empty | ⟨filled, stops⟩
    · exact Or.inl empty
    · exact Or.inr ⟨_, ⟨filled, rfl⟩, Or.inl stops⟩

/-- A projection fails exactly for a label that is not found, for an empty one or at the first entry
at fault, whichever comes first.
-/
theorem project_eq_error_iff
    : table.project source target = .error failure
      ↔ table.ProjectFails source target failure := by
  have resolved_iff : (∀ label ∈ [source, target], label ∈ table.labels.toList)
      ↔ [source, target].find? (fun label => label ∉ table.labels.toList) = none := by
    simp
  cases first : [source, target].find? (fun label => label ∉ table.labels.toList) with
  | some label =>
      have unresolved : ¬∀ label ∈ [source, target], label ∈ table.labels.toList :=
        resolved_iff.not.mpr (first ▸ Option.some_ne_none label)
      rw [project_eq_fail_of_find? first]
      constructor
      · intro same
        cases same
        exact .unresolved first
      · intro fails
        cases fails with
        | unresolved other =>
            obtain rfl := Option.some.inj (first.symm.trans other)
            rfl
        | emptyLabel resolved => exact absurd resolved unresolved
        | entry found_source found_target =>
            have resolved : ∀ label ∈ [source, target], label ∈ table.labels.toList := by
              simp [Labels.mem_toList_iff, found_source, found_target]
            exact absurd resolved unresolved
  | none =>
      have resolved := resolved_iff.mpr first
      obtain ⟨sourceColumn, found_source⟩ := Labels.mem_toList_iff.mp (resolved source (by simp))
      obtain ⟨targetColumn, found_target⟩ := Labels.mem_toList_iff.mp (resolved target (by simp))
      rw [project_eq_error_iff_of_found found_source found_target]
      constructor
      · intro given
        rcases given with ⟨empty, rfl⟩ | ⟨filled, before, entry, after, split, fine, fault⟩
        · exact .emptyLabel resolved empty
        · exact .entry found_source found_target filled split fine fault
      · intro fails
        cases fails with
        | unresolved other => cases first.symm.trans other
        | emptyLabel _ empty => exact Or.inl ⟨empty, rfl⟩
        | entry found_source' found_target' filled split fine fault =>
            obtain rfl := Option.some.inj (found_source.symm.trans found_source')
            obtain rfl := Option.some.inj (found_target.symm.trans found_target')
            exact Or.inr ⟨filled, _, _, _, split, fine, fault⟩

/-- What stands in the way of a projection: a label that is not found or empty, or any entry at
fault.
-/
def Blocked (table : Table n) (source target : String) : Prop :=
  source ∉ table.labels.toList ∨ target ∉ table.labels.toList ∨ source = "" ∨ target = ""
  ∨ ∃ sourceColumn targetColumn,
      table.labels.find? source = some sourceColumn
      ∧ table.labels.find? target = some targetColumn
      ∧ ∃ entry ∈ table.entries, ∃ failure, entry.FaultAt sourceColumn targetColumn failure

/-- Of all that is in the way, only the order decides which failure it is. -/
theorem exists_project_eq_error_iff
    : (∃ failure, table.project source target = .error failure) ↔ table.Blocked source target := by
  constructor
  · intro given
    rcases given with ⟨failure, fails⟩
    cases project_eq_error_iff.mp fails with
    | @unresolved label first =>
        have unknown : label ∉ table.labels.toList := by simpa using List.find?_some first
        rcases List.mem_pair.mp (List.mem_of_find?_eq_some first) with rfl | rfl
        · exact Or.inl unknown
        · exact Or.inr (Or.inl unknown)
    | emptyLabel _ empty => exact Or.inr (Or.inr (or_assoc.mp (Or.inl empty)))
    | entry found_source found_target _ split _ fault =>
        have listed : _ ∈ table.entries := split ▸ List.mem_append_right _ List.mem_cons_self
        exact Or.inr (Or.inr (Or.inr (Or.inr
          ⟨_, _, found_source, found_target, _, listed, failure, fault⟩)))
  · intro blocked
    cases outcome : table.project source target with
    | error failure => exact ⟨failure, rfl⟩
    | ok result =>
        obtain ⟨column, column', found, found', filled, projected, _⟩ := project_eq_ok outcome
        rcases blocked with unknown | unknown | empty | empty
          | ⟨_, _, found_source, found_target, entry, listed, failure, fault⟩
        · exact absurd (Labels.mem_toList_iff.mpr ⟨_, found⟩) unknown
        · exact absurd (Labels.mem_toList_iff.mpr ⟨_, found'⟩) unknown
        · exact absurd empty filled.1
        · exact absurd empty filled.2
        · obtain rfl := Option.some.inj (found.symm.trans found_source)
          obtain rfl := Option.some.inj (found'.symm.trans found_target)
          exact absurd fault (Entry.exists_projected_iff.mp (projected entry listed) failure)

end Table

end NameTables
