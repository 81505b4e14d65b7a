import NameTables.Format.FlatReader
import NameTables.Proofs.Format.Records

/-! One step of reading the flat format.
Every line after the header is a record that declares one entry, whatever came before it, so a file
is read as the list of what its lines declare.
-/

namespace NameTables.Flat

variable {n : Nat}

/-- (Declares n record declared) says what a record declares. Members begin with their owner. -/
inductive Declares (n : Nat) : Record → Declaration n → Prop
  | cls {record name names} (flush : record.depth = 0) (tag : record.tag = "CLASS")
    (keyed : record.keyedNames n .cls = .ok (name, names))
    : Declares n record ⟨.cls name, names⟩
  | field {record owner owned descriptor rest name names} (flush : record.depth = 0)
    (tag : record.tag = "FIELD") (taken : record.take = .ok (owner, owned))
    (described : owned.takeFieldDescriptor = .ok (descriptor, rest))
    (keyed : rest.keyedNames n .field = .ok (name, names))
    : Declares n record ⟨.field ⟨owner⟩ ⟨name, descriptor⟩, names⟩
  | method {record owner owned descriptor rest name names} (flush : record.depth = 0)
    (tag : record.tag = "METHOD") (taken : record.take = .ok (owner, owned))
    (described : owned.takeMethodDescriptor = .ok (descriptor, rest))
    (keyed : rest.keyedNames n .method = .ok (name, names))
    : Declares n record ⟨.method ⟨owner⟩ ⟨name, descriptor⟩, names⟩

theorem declares_of_declaration {record : Record} {declared : Declaration n}
    (read : declaration n record = .ok declared)
    : Declares n record declared := by
  unfold declaration at read
  split at read
  · exact absurd read Record.fail_ne_ok
  · next flush =>
    have flush := Classical.not_not.mp flush
    split at read
    · next tag =>
      obtain ⟨⟨name, names⟩, keyed, same⟩ := Outcome.bind_eq_ok_iff.mp read
      obtain rfl := Except.ok.inj same
      exact .cls flush tag keyed
    · split at read
      · next tag =>
        obtain ⟨⟨owner, owned⟩, taken, read⟩ := Outcome.bind_eq_ok_iff.mp read
        obtain ⟨⟨descriptor, rest⟩, described, read⟩ := Outcome.bind_eq_ok_iff.mp read
        obtain ⟨⟨name, names⟩, keyed, same⟩ := Outcome.bind_eq_ok_iff.mp read
        obtain rfl := Except.ok.inj same
        exact .field flush tag taken described keyed
      · split at read
        · next tag =>
          obtain ⟨⟨owner, owned⟩, taken, read⟩ := Outcome.bind_eq_ok_iff.mp read
          obtain ⟨⟨descriptor, rest⟩, described, read⟩ := Outcome.bind_eq_ok_iff.mp read
          obtain ⟨⟨name, names⟩, keyed, same⟩ := Outcome.bind_eq_ok_iff.mp read
          obtain rfl := Except.ok.inj same
          exact .method flush tag taken described keyed
        · exact absurd read Record.fail_ne_ok

/-- Reading follows the relation, by its constructors. -/
theorem declaration_of_declares {record : Record} {declared : Declaration n}
    (declares : Declares n record declared)
    : declaration n record = .ok declared := by
  cases declares with
  | cls flush tag keyed =>
      rw [declaration, if_neg (not_not.mpr flush), if_pos tag]
      exact Outcome.bind_eq_ok_iff.mpr ⟨_, keyed, rfl⟩
  | field flush tag taken described keyed =>
      rw [declaration, if_neg (not_not.mpr flush), if_neg (by simp [tag]), if_pos tag]
      exact Outcome.bind_eq_ok_iff.mpr ⟨_, taken, Outcome.bind_eq_ok_iff.mpr
        ⟨_, described, Outcome.bind_eq_ok_iff.mpr ⟨_, keyed, rfl⟩⟩⟩
  | method flush tag taken described keyed =>
      rw [declaration, if_neg (not_not.mpr flush), if_neg (by simp [tag]),
        if_neg (by simp [tag]), if_pos tag]
      exact Outcome.bind_eq_ok_iff.mpr ⟨_, taken, Outcome.bind_eq_ok_iff.mpr
        ⟨_, described, Outcome.bind_eq_ok_iff.mpr ⟨_, keyed, rfl⟩⟩⟩

theorem declaration_eq_ok_iff {record : Record} {declared : Declaration n}
    : declaration n record = .ok declared ↔ Declares n record declared :=
  ⟨declares_of_declaration, declaration_of_declares⟩

/-- The lines declare these entries, one each. -/
def Listed (lines : List Text.Line) (declarations : List (Declaration n)) : Prop :=
  List.Forall₂
    (fun line declared => ∃ record, line.record = .ok record ∧ Declares n record declared)
    lines declarations

theorem step_eq_ok_iff {table table' : Table n} {line : Text.Line}
    : step table line = .ok table'
      ↔ ∃ declared, (∃ record, line.record = .ok record ∧ Declares n record declared)
          ∧ table' = table.declare declared := by
  unfold step
  simp only [Outcome.bind_eq_ok_iff, declaration_eq_ok_iff]
  constructor
  · intro given
    rcases given with ⟨record, decoded, declared, declares, same⟩
    exact ⟨declared, ⟨record, decoded, declares⟩, (Except.ok.inj same).symm⟩
  · intro given
    rcases given with ⟨declared, ⟨record, decoded, declares⟩, rfl⟩
    exact ⟨record, decoded, declared, declares, rfl⟩

/-- A run takes what the lines declare, in their order, by list induction. -/
theorem foldlM_step_eq_ok_iff {table table' : Table n} {lines : List Text.Line}
    : lines.foldlM step table = .ok table'
      ↔ ∃ declarations, Listed lines declarations ∧ table' = table.declareAll declarations := by
  induction lines generalizing table with
  | nil =>
      simp only [Listed, List.forall₂_nil_left_iff, exists_eq_left, List.foldlM_nil]
      exact ⟨fun same => (Except.ok.inj same).symm, fun same => congrArg Except.ok same.symm⟩
  | cons line lines ih =>
      simp only [List.foldlM_cons, Outcome.bind_eq_ok_iff, step_eq_ok_iff, ih, Listed,
        List.forall₂_cons_left_iff]
      constructor
      · intro given
        rcases given with ⟨_, ⟨declared, first, rfl⟩, declarations, rest, rfl⟩
        exact ⟨_, ⟨declared, declarations, first, rest, rfl⟩, rfl⟩
      · intro given
        rcases given with ⟨_, ⟨declared, declarations, first, rest, rfl⟩, rfl⟩
        exact ⟨_, ⟨declared, first, rfl⟩, declarations, rest, rfl⟩

-----------------------------------------------------------------------------------------
-- Headers and whole files
-----------------------------------------------------------------------------------------

theorem headerLabels_eq_ok_iff {record : Record} {labels : Labels n}
    : headerLabels n record = .ok labels
      ↔ record.tag = "v1" ∧ record.fields = labels.toList ∧ "" ∉ labels.toList := by
  unfold headerLabels
  split
  · next tag => rw [Record.labels_eq_ok_iff, and_iff_right tag]
  · next other => simp [other, Record.fail]

/-- A file is read when its header is and each later line declares something. Empty lines are
skipped.
-/
theorem read_eq_ok_iff {lines : List Text.Line} {table : Table n}
    : read n lines = .ok table
      ↔ 2 ≤ n ∧ ∃ first rest header labels declarations,
          lines.filter (·.text ≠ some "") = first :: rest
          ∧ first.record = .ok header
          ∧ headerLabels n header = .ok labels
          ∧ Listed rest declarations
          ∧ table = (Table.empty labels).declareAll declarations := by
  unfold read
  constructor
  · intro done
    split at done
    · simp at done
    · next enough =>
      refine ⟨Nat.le_of_not_lt enough, ?_⟩
      split at done
      · simp at done
      · next first rest filled =>
        obtain ⟨header, decoded, done⟩ := Outcome.bind_eq_ok_iff.mp done
        obtain ⟨labels, labelled, run⟩ := Outcome.bind_eq_ok_iff.mp done
        obtain ⟨declarations, listed, same⟩ := foldlM_step_eq_ok_iff.mp run
        exact ⟨first, rest, header, labels, declarations, filled, decoded, labelled, listed, same⟩
  · intro given
    rcases given with
      ⟨enough, first, rest, header, labels, declarations, filled, decoded, labelled, listed, same⟩
    rw [if_neg (Nat.not_lt.mpr enough), filled]
    refine Outcome.bind_eq_ok_iff.mpr ⟨header, decoded, ?_⟩
    refine Outcome.bind_eq_ok_iff.mpr ⟨labels, labelled, ?_⟩
    exact foldlM_step_eq_ok_iff.mpr ⟨declarations, listed, same⟩

end NameTables.Flat
