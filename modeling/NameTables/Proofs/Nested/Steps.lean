import NameTables.Format.NestedReader
import NameTables.Proofs.Format.Records

/-! One step of reading the nested format.
A line is read when it is a record no deeper than one below the open ones, and when it may stand
below the open record that it belongs to.
-/

namespace NameTables.Nested

variable {n : Nat}

/-- (Declares n owner record declared) says what a record declares below the entry at `owner`, or
that it is a comment there.
-/
inductive Declares (n : Nat) : Option Path → Record → Option (Declaration n) → Prop
  | cls {record name names} (tag : record.tag = "c")
    (keyed : record.keyedNames n .cls = .ok (name, names))
    : Declares n none record (some ⟨.cls name, names⟩)
  | field {owner record descriptor rest name names} (tag : record.tag = "f")
    (described : record.takeFieldDescriptor = .ok (descriptor, rest))
    (keyed : rest.keyedNames n .field = .ok (name, names))
    : Declares n (some (.cls owner)) record (some ⟨.field owner ⟨name, descriptor⟩, names⟩)
  | method {owner record descriptor rest name names} (tag : record.tag = "m")
    (described : record.takeMethodDescriptor = .ok (descriptor, rest))
    (keyed : rest.keyedNames n .method = .ok (name, names))
    : Declares n (some (.cls owner)) record (some ⟨.method owner ⟨name, descriptor⟩, names⟩)
  | parameter {owner key record text index rest names} (tag : record.tag = "p")
    (taken : record.take = .ok (text, rest)) (indexed : parameterIndex text = .ok index)
    (named : rest.names n .parameter = .ok names)
    : Declares n (some (.method owner key)) record (some ⟨.parameter owner key index, names⟩)
  | comment {owner record} (tag : record.tag = "c") : Declares n (some owner) record none

theorem comment_eq_ok_iff {record : Record} {declared : Option (Declaration n)}
    : comment record = .ok declared ↔ record.tag = "c" ∧ declared = none := by
  unfold comment
  split
  · next tag => simp [tag, eq_comm]
  · next other => simp [other, Record.fail]

/-- The records that declare something, by the owner and the tag. -/
theorem declares_of_declaration {owner : Option Path} {record : Record}
    {declared : Option (Declaration n)} (read : declaration n owner record = .ok declared)
    : Declares n owner record declared := by
  have of_comment {path : Path} (read : comment record = .ok declared)
      : Declares n (some path) record declared := by
    obtain ⟨tag, rfl⟩ := comment_eq_ok_iff.mp read
    exact .comment tag
  cases owner with
  | none =>
      simp only [declaration] at read
      split at read
      · next tag =>
        obtain ⟨⟨name, names⟩, keyed, same⟩ := Outcome.bind_eq_ok_iff.mp read
        obtain rfl := Except.ok.inj same
        exact .cls tag keyed
      · exact absurd read Record.fail_ne_ok
  | some path =>
      cases path with
      | cls owner =>
          simp only [declaration] at read
          split at read
          · next tag =>
            obtain ⟨⟨descriptor, rest⟩, described, read⟩ := Outcome.bind_eq_ok_iff.mp read
            obtain ⟨⟨name, names⟩, keyed, same⟩ := Outcome.bind_eq_ok_iff.mp read
            obtain rfl := Except.ok.inj same
            exact .field tag described keyed
          · split at read
            · next tag =>
              obtain ⟨⟨descriptor, rest⟩, described, read⟩ := Outcome.bind_eq_ok_iff.mp read
              obtain ⟨⟨name, names⟩, keyed, same⟩ := Outcome.bind_eq_ok_iff.mp read
              obtain rfl := Except.ok.inj same
              exact .method tag described keyed
            · exact of_comment read
      | method owner key =>
          simp only [declaration] at read
          split at read
          · next tag =>
            obtain ⟨⟨text, rest⟩, taken, read⟩ := Outcome.bind_eq_ok_iff.mp read
            split at read
            · exact absurd read Record.fail_ne_ok
            · next index indexed =>
              obtain ⟨names, named, same⟩ := Outcome.bind_eq_ok_iff.mp read
              obtain rfl := Except.ok.inj same
              exact .parameter tag taken indexed named
          · exact of_comment read
      | field => exact of_comment read
      | parameter => exact of_comment read

/-- Reading follows the relation, by its constructors. -/
theorem declaration_of_declares {owner : Option Path} {record : Record}
    {declared : Option (Declaration n)} (declares : Declares n owner record declared)
    : declaration n owner record = .ok declared := by
  cases declares with
  | cls tag keyed =>
      rw [declaration, if_pos tag]
      exact Outcome.bind_eq_ok_iff.mpr ⟨_, keyed, rfl⟩
  | field tag described keyed =>
      rw [declaration, if_pos tag]
      exact Outcome.bind_eq_ok_iff.mpr
        ⟨_, described, Outcome.bind_eq_ok_iff.mpr ⟨_, keyed, rfl⟩⟩
  | method tag described keyed =>
      rw [declaration, if_neg (by simp [tag]), if_pos tag]
      exact Outcome.bind_eq_ok_iff.mpr
        ⟨_, described, Outcome.bind_eq_ok_iff.mpr ⟨_, keyed, rfl⟩⟩
  | parameter tag taken indexed named =>
      rw [declaration, if_pos tag]
      refine Outcome.bind_eq_ok_iff.mpr ⟨_, taken, ?_⟩
      simp only [indexed]
      exact Outcome.bind_eq_ok_iff.mpr ⟨_, named, rfl⟩
  | @comment owner record tag =>
      have read : comment record = .ok (none : Option (Declaration n)) :=
        comment_eq_ok_iff.mpr ⟨tag, rfl⟩
      cases owner with
      | cls owner =>
          rw [declaration, if_neg (by simp [tag]), if_neg (by simp [tag])]
          exact read
      | method owner key =>
          rw [declaration, if_neg (by simp [tag])]
          exact read
      | field => exact read
      | parameter => exact read

theorem declaration_eq_ok_iff {owner : Option Path} {record : Record}
    {declared : Option (Declaration n)}
    : declaration n owner record = .ok declared ↔ Declares n owner record declared :=
  ⟨declares_of_declaration, declaration_of_declares⟩

@[simp]
theorem withinAll_eq_ok_iff {α : Type} {opened : List Open} {outcome : Outcome α} {a : α}
    : withinAll opened outcome = .ok a ↔ outcome = .ok a := by
  induction opened with
  | nil => rfl
  | cons record opened ih =>
      change (withinAll opened outcome).within _ = _ ↔ _
      rw [Outcome.within_eq_ok_iff, ih]

/-- The records that stay open around one that is indented by `depth` tabs. -/
def Progress.around (progress : Progress n) (depth : Nat) : List Open :=
  progress.opened.take depth

/-- The innermost record around one that is indented by `depth` tabs. -/
def Progress.ownerAt (progress : Progress n) (depth : Nat) : Option Path :=
  (progress.around depth).getLast?.map Open.path

/-- Where reading goes on after a record. A comment opens nothing. -/
def Progress.advance (progress : Progress n) (record : Record)
    : Option (Declaration n) → Progress n
  | none => { progress with opened := progress.around record.depth }
  | some declared =>
      ⟨progress.table.declare declared,
        progress.around record.depth ++ [⟨record.line, declared.path⟩]⟩

/-- A step takes one record that may stand where it is. -/
theorem step_eq_ok_iff {progress progress' : Progress n} {line : Text.Line}
    : step progress line = .ok progress'
      ↔ ∃ record declared,
          line.record = .ok record
          ∧ record.depth ≤ progress.opened.length
          ∧ Declares n (progress.ownerAt record.depth) record declared
          ∧ progress' = progress.advance record declared := by
  unfold step
  rw [Outcome.bind_eq_ok_iff]
  constructor
  · intro given
    rcases given with ⟨record, decoded, read⟩
    rw [withinAll_eq_ok_iff] at decoded
    split at read
    · rw [withinAll_eq_ok_iff] at read
      exact absurd read Record.fail_ne_ok
    · next shallow =>
      obtain ⟨declared, declares, advanced⟩ := Outcome.bind_eq_ok_iff.mp read
      rw [withinAll_eq_ok_iff, Outcome.within_eq_ok_iff, declaration_eq_ok_iff] at declares
      refine ⟨record, declared, decoded, Nat.le_of_not_lt shallow, declares, ?_⟩
      cases declared <;> exact (Except.ok.inj advanced).symm
  · intro given
    rcases given with ⟨record, declared, decoded, shallow, declares, rfl⟩
    refine ⟨record, by rw [withinAll_eq_ok_iff]; exact decoded, ?_⟩
    rw [if_neg (Nat.not_lt.mpr shallow), Outcome.bind_eq_ok_iff]
    refine ⟨declared, ?_, by cases declared <;> rfl⟩
    rw [withinAll_eq_ok_iff, Outcome.within_eq_ok_iff, declaration_eq_ok_iff]
    exact declares

-----------------------------------------------------------------------------------------
-- Headers and whole files
-----------------------------------------------------------------------------------------

/-- A header holds its version and then the labels. -/
theorem headerLabels_eq_ok_iff {record : Record} {labels : Labels n}
    : headerLabels n record = .ok labels
      ↔ record.tag = "tiny" ∧ record.fields = "2" :: "0" :: labels.toList
        ∧ "" ∉ labels.toList := by
  unfold headerLabels
  constructor
  · intro read
    split at read
    · next tag =>
      obtain ⟨⟨major, afterMajor⟩, takenMajor, read⟩ := Outcome.bind_eq_ok_iff.mp read
      dsimp only at read
      split at read
      · next isMajor =>
        obtain ⟨⟨minor, afterMinor⟩, takenMinor, read⟩ := Outcome.bind_eq_ok_iff.mp read
        dsimp only at read
        split at read
        · next isMinor =>
          obtain ⟨fields, nonempty⟩ := Record.labels_eq_ok_iff.mp read
          refine ⟨tag, ?_, nonempty⟩
          rw [(Record.take_eq_ok_iff.mp takenMajor).1, (Record.take_eq_ok_iff.mp takenMinor).1,
            fields, isMajor, isMinor]
        · exact absurd read Record.fail_ne_ok
      · exact absurd read Record.fail_ne_ok
    · exact absurd read Record.fail_ne_ok
  · intro given
    rcases given with ⟨tag, fields, nonempty⟩
    rw [if_pos tag]
    have takenMajor : record.take
        = .ok ("2", { record with fields := "0" :: labels.toList }) :=
      Record.take_eq_ok_iff.mpr ⟨fields, rfl⟩
    refine Outcome.bind_eq_ok_iff.mpr ⟨_, takenMajor, ?_⟩
    dsimp only
    rw [if_pos rfl]
    have takenMinor : Record.take { record with fields := "0" :: labels.toList }
        = .ok ("0", { record with fields := labels.toList }) :=
      Record.take_eq_ok_iff.mpr ⟨rfl, rfl⟩
    refine Outcome.bind_eq_ok_iff.mpr ⟨_, takenMinor, ?_⟩
    dsimp only
    rw [if_pos rfl]
    exact Record.labels_eq_ok_iff.mpr ⟨rfl, nonempty⟩

/-- A file is read when its header is and each later line in its turn. -/
theorem read_eq_ok_iff {lines : List Text.Line} {table : Table n}
    : read n lines = .ok table
      ↔ 2 ≤ n ∧ ∃ first rest header labels progress,
          lines = first :: rest
          ∧ first.record = .ok header
          ∧ headerLabels n header = .ok labels
          ∧ rest.foldlM step ⟨Table.empty labels, []⟩ = .ok progress
          ∧ table = progress.table := by
  unfold read
  constructor
  · intro done
    split at done
    · simp at done
    · next enough =>
      refine ⟨Nat.le_of_not_lt enough, ?_⟩
      split at done
      · simp at done
      · next first rest =>
        obtain ⟨header, decoded, done⟩ := Outcome.bind_eq_ok_iff.mp done
        obtain ⟨labels, labelled, done⟩ := Outcome.bind_eq_ok_iff.mp done
        obtain ⟨progress, run, done⟩ := Outcome.bind_eq_ok_iff.mp done
        rw [Outcome.within_eq_ok_iff] at run
        exact ⟨first, rest, header, labels, progress, rfl, decoded, labelled, run,
          (Except.ok.inj done).symm⟩
  · intro given
    rcases given with
      ⟨enough, first, rest, header, labels, progress, rfl, decoded, labelled, run, rfl⟩
    rw [if_neg (Nat.not_lt.mpr enough)]
    refine Outcome.bind_eq_ok_iff.mpr ⟨header, decoded, ?_⟩
    refine Outcome.bind_eq_ok_iff.mpr ⟨labels, labelled, ?_⟩
    refine Outcome.bind_eq_ok_iff.mpr ⟨progress, ?_, rfl⟩
    rw [Outcome.within_eq_ok_iff]
    exact run

end NameTables.Nested
