import NameTables.Proofs.FirstFailure
import NameTables.Proofs.Join.Meaning

/-! When a join fails.
The four namespaces are looked up first, then the labels of the result are checked, and then the
descriptors are scanned in the order of the left table. Nothing that the right table holds makes a
join fail.
-/

namespace NameTables

variable {m n : Nat}

-----------------------------------------------------------------------------------------
-- Members whose descriptors are scanned
-----------------------------------------------------------------------------------------

/-- The descriptor of a member that a join moves, and what is said when it is at fault. A member
moves when it and its class have names in the source namespace.
-/
def Entry.described? (source : Fin m) : Entry m → Option (Activity × Descriptor)
  | .field owner member => do
      let ownerName ← owner.names.get source
      let name ← member.names.get source
      return (.fieldDescriptor name ownerName, ← member.descriptor)
  | .method owner member => do
      let ownerName ← owner.names.get source
      let name ← member.names.get source
      return (.methodDescriptor name ownerName, member.descriptor)
  | .cls _ => none
  | .parameter _ _ _ => none

/-- All descriptors that a join scans, in its order. -/
def Table.described (table : Table m) (source : Fin m) : List (Activity × Descriptor) :=
  table.entries.filterMap (Entry.described? source)

/-- A failure at a descriptor. -/
def Failure.ofOpen (activity : Activity) (descriptor : Descriptor) : Failure :=
  ⟨[activity], .malformed 0 (.openReference descriptor)⟩

/-- A descriptor is renamed for a member unless it is open. -/
theorem Outcome.renamed_eq_error_iff {α : Type} {newName : ClassName → ClassName}
    {activity : Activity} {descriptor : Descriptor} {key : Descriptor → α} {failure : Failure}
    : (do return key (← (descriptor.rename newName).within activity) : Outcome α)
        = .error failure
      ↔ descriptor.Open ∧ failure = .ofOpen activity descriptor := by
  rw [bind_eq_error_iff, within_eq_error_iff]
  simp only [Descriptor.rename_eq_error_iff]
  constructor
  · intro given
    rcases given with ⟨_, ⟨opened, rfl⟩, rfl⟩ | ⟨_, _, returned⟩
    · exact ⟨opened, rfl⟩
    · cases returned
  · intro given
    rcases given with ⟨opened, rfl⟩
    exact Or.inl ⟨_, ⟨opened, rfl⟩, rfl⟩

theorem Rekey.fieldKey_eq_error_iff {rekey : Rekey m} {owner : Class m} {field : Field m}
    {failure : Failure}
    : rekey.fieldKey owner field = .error failure
      ↔ ∃ member ∈ (Entry.field owner field).described? rekey.column,
          member.2.Open ∧ failure = .ofOpen member.1 member.2 := by
  unfold fieldKey Entry.described?
  cases owned : owner.names.get rekey.column with
  | none => simp [owned]
  | some ownerName =>
      cases named : field.names.get rekey.column with
      | none => simp [owned, named]
      | some name =>
          cases described : field.descriptor with
          | none => simp [owned, named, described]
          | some descriptor =>
              simp only [owned, named, described, Outcome.renamed_eq_error_iff]
              simp

theorem Rekey.methodKey_eq_error_iff {rekey : Rekey m} {owner : Class m} {method : Method m}
    {failure : Failure}
    : rekey.methodKey owner method = .error failure
      ↔ ∃ member ∈ (Entry.method owner method).described? rekey.column,
          member.2.Open ∧ failure = .ofOpen member.1 member.2 := by
  unfold methodKey Entry.described?
  cases owned : owner.names.get rekey.column with
  | none => simp [owned]
  | some ownerName =>
      cases named : method.names.get rekey.column with
      | none => simp [owned, named]
      | some name =>
          simp only [owned, named, Outcome.renamed_eq_error_iff]
          simp

/-- An entry fails for its descriptor alone. -/
theorem Joining.edit_eq_error_iff {joining : Joining m n} {entry : Entry m} {failure : Failure}
    : joining.edit entry = .error failure
      ↔ ∃ member ∈ entry.described? joining.rekey.column,
          member.2.Open ∧ failure = .ofOpen member.1 member.2 := by
  cases entry with
  | cls cls => simp [edit, Entry.described?]
  | field owner field =>
      rw [← Rekey.fieldKey_eq_error_iff, edit, Outcome.bind_eq_error_iff]
      simp [Pure.pure, Except.pure]
  | method owner method =>
      rw [← Rekey.methodKey_eq_error_iff, edit, Outcome.bind_eq_error_iff]
      simp [Pure.pure, Except.pure]
  | parameter => simp [edit, Entry.described?]

/-- The first open descriptor stops a run over the entries. -/
theorem Joining.mapM_edit_eq_error_iff {joining : Joining m n} {entries : List (Entry m)}
    {failure : Failure}
    : entries.mapM joining.edit = .error failure
      ↔ ∃ member,
          (entries.filterMap (Entry.described? joining.rekey.column)).find?
              (fun member => member.2.Open)
            = some member
          ∧ failure = .ofOpen member.1 member.2 := by
  have fine {entry : Entry m} : (∃ change, joining.edit entry = .ok change)
      ↔ ∀ member ∈ entry.described? joining.rekey.column, ¬member.2.Open := by
    constructor
    · intro given
      rcases given with ⟨change, done⟩
      intro member described opened
      rw [edit_eq_error_iff.mpr ⟨member, described, opened, rfl⟩] at done
      cases done
    · intro closed
      cases result : joining.edit entry with
      | ok change => exact ⟨change, rfl⟩
      | error failure =>
          obtain ⟨member, described, opened, _⟩ := edit_eq_error_iff.mp result
          exact absurd opened (closed member described)
  have stops {entry : Entry m}
      : (entry.described? joining.rekey.column).any (fun member => decide member.2.Open) = true
        ↔ ∃ member ∈ entry.described? joining.rekey.column, member.2.Open := by
    simp [Option.any_eq_true]
  simp only [Outcome.mapM_eq_error_iff, fine, edit_eq_error_iff, List.find?_filterMap,
    Option.bind_eq_some_iff, List.find?_eq_some_iff_append, Bool.not_eq_true', stops,
    ← Bool.not_eq_true, not_exists, not_and]
  constructor
  · intro given
    rcases given with ⟨before, item, after, split, closed, member, described, opened, rfl⟩
    exact ⟨member, ⟨item, ⟨⟨member, described, opened⟩, before, after, split, closed⟩, described⟩,
      rfl⟩
  · intro given
    rcases given with
      ⟨member, ⟨item, ⟨⟨other, described', opened⟩, before, after, split, closed⟩, described⟩, rfl⟩
    obtain rfl := Option.some.inj (described'.symm.trans described)
    exact ⟨before, item, after, split, closed, other, described, opened, rfl⟩

-----------------------------------------------------------------------------------------
-- Whole joins
-----------------------------------------------------------------------------------------

/-- The labels of a join in the order in which they are looked up, each with those of its table. -/
def JoinLabels.lookups (labels : JoinLabels) (left : Labels m) (right : Labels n)
    : List (String × List String) :=
  [(labels.source, left.toList), (labels.probe, left.toList),
    (labels.target, right.toList), (labels.key, right.toList)]

/-- (JoinFails left right labels source target failure) says how a join fails whose result gets the
labels `source` and `target`. Of the right table it takes the labels alone.
-/
inductive JoinFails (left : Table m) (right : Labels n) (labels : JoinLabels)
    (source target : String)
    : Failure → Prop
  | unresolved {label present}
    (first : (labels.lookups left.labels right).find? (fun lookup => lookup.1 ∉ lookup.2)
      = some (label, present))
    : JoinFails left right labels source target (.of (.unknownLabel label present))
  | emptyLabel
    (resolved : ∀ lookup ∈ labels.lookups left.labels right, lookup.1 ∈ lookup.2)
    (empty : source = "" ∨ target = "")
    : JoinFails left right labels source target (.of (.emptyLabel [source, target]))
  | openReference {column activity descriptor}
    (resolved : ∀ lookup ∈ labels.lookups left.labels right, lookup.1 ∈ lookup.2)
    (filled : source ≠ "" ∧ target ≠ "")
    (named : left.labels.find? labels.source = some column)
    (first : (left.described column).find? (fun member => member.2.Open)
      = some (activity, descriptor))
    : JoinFails left right labels source target (.ofOpen activity descriptor)

namespace Table

variable {left : Table m} {right : Table n} {labels : JoinLabels} {source target : String}
  {unmatched : Unmatched} {failure : Failure}

/-- A join whose labels are found takes its entries in their order. -/
theorem joinWith_eq_of_labelled {columns : JoinColumns m n}
    (labelled : columns.Labelled left right labels)
    : left.joinWith right labels source target unmatched
      = (do
          let joined ← Labels.pair source target
          let edits ← left.entries.mapM
            { columns.joining left right with unmatched := unmatched }.edit
          return (Table.empty joined).applyAll (edits.filterMap id)) := by
  obtain ⟨source_found, probe_found, target_found, key_found⟩ := labelled
  simp only [← Labels.resolve_eq_ok_iff] at source_found probe_found target_found key_found
  simp only [joinWith, source_found, probe_found, target_found, key_found]
  rfl

/-- A join that succeeds has found all its labels. -/
theorem exists_labelled_of_joinWith_eq_ok {result : Table 2}
    (succeeds : left.joinWith right labels source target unmatched = .ok result)
    : ∃ columns : JoinColumns m n, columns.Labelled left right labels := by
  obtain ⟨_, source_found, succeeds⟩ := Outcome.bind_eq_ok_iff.mp succeeds
  obtain ⟨_, probe_found, succeeds⟩ := Outcome.bind_eq_ok_iff.mp succeeds
  obtain ⟨_, target_found, succeeds⟩ := Outcome.bind_eq_ok_iff.mp succeeds
  obtain ⟨_, key_found, _⟩ := Outcome.bind_eq_ok_iff.mp succeeds
  simp only [Labels.resolve_eq_ok_iff] at source_found probe_found target_found key_found
  exact ⟨⟨_, _, _, _⟩, source_found, probe_found, target_found, key_found⟩

/-- A join has namespaces when all its labels are found. -/
theorem exists_labelled_iff
    : (∃ columns : JoinColumns m n, columns.Labelled left right labels)
      ↔ ∀ lookup ∈ labels.lookups left.labels right.labels, lookup.1 ∈ lookup.2 := by
  simp only [JoinLabels.lookups, List.forall_mem_cons, List.not_mem_nil, false_implies,
    implies_true, and_true, Labels.mem_toList_iff]
  constructor
  · intro given
    rcases given with ⟨columns, source_found, probe_found, target_found, key_found⟩
    exact ⟨⟨_, source_found⟩, ⟨_, probe_found⟩, ⟨_, target_found⟩, ⟨_, key_found⟩⟩
  · intro given
    rcases given with ⟨⟨_, source_found⟩, ⟨_, probe_found⟩, ⟨_, target_found⟩, ⟨_, key_found⟩⟩
    exact ⟨⟨_, _, _, _⟩, source_found, probe_found, target_found, key_found⟩

/-- The first label that is not found stops a join, whatever the tables hold. -/
theorem joinWith_eq_fail_of_find? {label : String} {present : List String}
    (first : (labels.lookups left.labels right.labels).find? (fun lookup => lookup.1 ∉ lookup.2)
      = some (label, present))
    : left.joinWith right labels source target unmatched
      = .fail (.unknownLabel label present) := by
  have found {k : Nat} {given : Labels k} {label : String}
      (known : decide (label ∉ given.toList) = false)
      : ∃ i, given.resolve label = .ok i :=
    Labels.exists_resolve (by simpa using known)
  simp only [JoinLabels.lookups, List.find?_cons] at first
  split at first
  · next unknown =>
    cases first
    rw [joinWith, Labels.resolve_eq_fail (of_decide_eq_true unknown)]
    rfl
  · next known =>
    obtain ⟨_, source_found⟩ := found known
    split at first
    · next unknown =>
      cases first
      simp only [joinWith, source_found, Labels.resolve_eq_fail (of_decide_eq_true unknown)]
      rfl
    · next known =>
      obtain ⟨_, probe_found⟩ := found known
      split at first
      · next unknown =>
        cases first
        simp only [joinWith, source_found, probe_found,
          Labels.resolve_eq_fail (of_decide_eq_true unknown)]
        rfl
      · next known =>
        obtain ⟨_, target_found⟩ := found known
        split at first
        · next unknown =>
          cases first
          simp only [joinWith, source_found, probe_found, target_found,
            Labels.resolve_eq_fail (of_decide_eq_true unknown)]
          rfl
        · cases first

/-- A join fails exactly for a label that is not found, an empty one or an open descriptor. -/
theorem joinWith_eq_error_iff
    : left.joinWith right labels source target unmatched = .error failure
      ↔ JoinFails left right.labels labels source target failure := by
  have resolved_iff : (∀ lookup ∈ labels.lookups left.labels right.labels, lookup.1 ∈ lookup.2)
      ↔ (labels.lookups left.labels right.labels).find? (fun lookup => lookup.1 ∉ lookup.2)
        = none := by
    simp
  cases first : (labels.lookups left.labels right.labels).find? (fun lookup => lookup.1 ∉ lookup.2)
  with
  | some lookup =>
      have unresolved := resolved_iff.not.mpr (first ▸ Option.some_ne_none lookup)
      rw [joinWith_eq_fail_of_find? first]
      constructor
      · intro same
        cases same
        exact .unresolved first
      · intro fails
        cases fails with
        | unresolved other =>
            obtain rfl := Option.some.inj (first.symm.trans other)
            rfl
        | emptyLabel resolved => exact absurd resolved unresolved
        | openReference resolved => exact absurd resolved unresolved
  | none =>
      have resolved := resolved_iff.mpr first
      obtain ⟨columns, labelled⟩ := exists_labelled_iff.mpr resolved
      rw [joinWith_eq_of_labelled labelled, Outcome.bind_eq_error_iff, Labels.pair_eq_error_iff]
      simp only [Outcome.bind_eq_error_iff, Labels.pair_eq_ok_iff, Joining.mapM_edit_eq_error_iff]
      constructor
      · intro given
        rcases given with ⟨empty, rfl⟩ | ⟨_, ⟨filled, _⟩, found | ⟨_, _, returned⟩⟩
        · exact .emptyLabel resolved empty
        · obtain ⟨⟨activity, descriptor⟩, found, rfl⟩ := found
          exact .openReference resolved filled labelled.1 found
        · cases returned
      · intro fails
        cases fails with
        | unresolved other =>
            rw [other] at first
            cases first
        | emptyLabel _ empty => exact Or.inl ⟨empty, rfl⟩
        | openReference _ filled named found =>
            obtain rfl := Option.some.inj (labelled.1.symm.trans named)
            exact Or.inr ⟨_, ⟨filled, rfl⟩, Or.inl ⟨_, found, rfl⟩⟩

end Table

/-- A join and a migration fail exactly for a namespace that is not found, an empty label of the
result or an open descriptor, whichever comes first.
-/
theorem Table.join_fails_iff {left : Table m} {right : Table n} {failure : Failure}
    : (∀ labels,
        left.join right labels = .error failure
          ↔ JoinFails left right.labels labels labels.source labels.target failure)
      ∧ ∀ matching named source target,
          left.migrate right matching named source target = .error failure
            ↔ JoinFails left right.labels ⟨named, matching, named, matching⟩ source target
                failure :=
  ⟨fun _ => joinWith_eq_error_iff, fun _ _ _ _ => joinWith_eq_error_iff⟩

end NameTables
