import NameTables.Proofs.Format.Deletion
import NameTables.Proofs.Nested.Rendering

/-! Reading without comments.
A comment changes nothing but how far the following lines may be indented. What is read with the
comments is also read without them, and makes the same table.
-/

namespace NameTables

variable {n : Nat}

-----------------------------------------------------------------------------------------
-- Line numbers
-----------------------------------------------------------------------------------------

/-- Lines with the same text have the same record, each under its own number. -/
theorem Text.Line.record_of_text_eq {line line' : Text.Line} {record : Record}
    (decoded : line.record = .ok record) (same : line'.text = line.text)
    : line'.record = .ok { record with line := line'.number } := by
  obtain ⟨text, is_text, rfl⟩ := record_eq_ok_iff.mp decoded
  exact record_eq_ok_iff.mpr ⟨text, same.trans is_text, rfl⟩

/-- Names are read from the fields alone. -/
theorem Record.keyedNames_congr {kind : Kind} {record record' : Record}
    (same : record'.fields = record.fields) {result : Name kind × Names n kind}
    (read : record.keyedNames n kind = .ok result)
    : record'.keyedNames n kind = .ok result := by
  obtain ⟨name, names⟩ := result
  rw [keyedNames_eq_ok_iff, names_eq_ok_iff] at read
  rw [keyedNames_eq_ok_iff, names_eq_ok_iff, same]
  exact read

namespace Nested

/-- What a record declares does not depend on the number of its line. -/
theorem Declares.of_toRow_eq {owner : Option Path} {record record' : Record}
    {declared : Option (Declaration n)} (declares : Declares n owner record declared)
    (same : record'.toRow = record.toRow)
    : Declares n owner record' declared := by
  have tag_eq : record'.tag = record.tag := congrArg Row.tag same
  have fields_eq : record'.fields = record.fields := congrArg Row.fields same
  have retake {text : String} {rest : Record} (taken : record.take = .ok (text, rest))
      : record'.take = .ok (text, { record' with fields := rest.fields }) :=
    Record.take_eq_ok_iff.mpr ⟨fields_eq.trans (Record.take_eq_ok_iff.mp taken).1, rfl⟩
  cases declares with
  | cls tag keyed =>
      exact .cls (tag_eq.trans tag) (Record.keyedNames_congr fields_eq keyed)
  | field tag described keyed =>
      obtain ⟨text, taken, descriptor_eq⟩ := Record.takeFieldDescriptor_eq_ok_iff.mp described
      exact .field (tag_eq.trans tag)
        (Record.takeFieldDescriptor_eq_ok_iff.mpr ⟨text, retake taken, descriptor_eq⟩)
        (Record.keyedNames_congr (by rfl) keyed)
  | method tag described keyed =>
      obtain ⟨taken, nonempty⟩ := Record.takeMethodDescriptor_eq_ok_iff.mp described
      exact .method (tag_eq.trans tag)
        (Record.takeMethodDescriptor_eq_ok_iff.mpr ⟨retake taken, nonempty⟩)
        (Record.keyedNames_congr (by rfl) keyed)
  | parameter tag taken indexed named =>
      obtain ⟨texts, fields, rfl⟩ := Record.names_eq_ok_iff.mp named
      exact .parameter (tag_eq.trans tag) (retake taken) indexed
        (Record.names_eq_ok_iff.mpr ⟨texts, fields, rfl⟩)
  | comment tag => exact .comment (tag_eq.trans tag)

-----------------------------------------------------------------------------------------
-- Steps with and without comments
-----------------------------------------------------------------------------------------

/-- The line is an indented record with the tag of comments, which is that of classes where there
is no indentation.
-/
def isComment : Option String → Bool
  | some text => decide (0 < (Row.parse text).depth ∧ (Row.parse text).tag = "c")
  | none => false

theorem isComment_iff {line : Text.Line} {record : Record} (decoded : line.record = .ok record)
    : isComment line.text = true ↔ 0 < record.depth ∧ record.tag = "c" := by
  obtain ⟨text, is_text, rfl⟩ := Text.Line.record_eq_ok_iff.mp decoded
  simp [is_text, isComment]

theorem Progress.ownerAt_eq (progress : Progress n) (depth : Nat)
    : progress.ownerAt depth = (progress.paths.take depth).getLast? := by
  rw [ownerAt, around, paths, ← List.map_take, List.getLast?_map]

theorem Progress.paths_advance_none (progress : Progress n) (record : Record)
    : (progress.advance record none).paths = progress.paths.take record.depth :=
  List.map_take

theorem Progress.paths_advance_some (progress : Progress n) (record : Record)
    (declaration : Declaration n)
    : (progress.advance record (some declaration)).paths
      = progress.paths.take record.depth ++ [declaration.path] := by
  simp [paths, advance, around]

/-- Only records without indentation belong to no other one. -/
theorem Progress.ownerAt_eq_none_iff {progress : Progress n} {depth : Nat}
    (shallow : depth ≤ progress.opened.length)
    : progress.ownerAt depth = none ↔ depth = 0 := by
  rw [ownerAt, around, Option.map_eq_none_iff, List.getLast?_eq_none_iff, List.take_eq_nil_iff]
  constructor
  · intro either
    rcases either with flush | none_open
    · exact flush
    · simpa [none_open] using shallow
  · exact Or.inl

/-- Indented records declare something unless they have the tag of comments. -/
theorem declares_none_iff_of_placed {progress : Progress n} {record : Record}
    {declared : Option (Declaration n)} (shallow : record.depth ≤ progress.opened.length)
    (declares : Declares n (progress.ownerAt record.depth) record declared)
    : declared = none ↔ 0 < record.depth ∧ record.tag = "c" := by
  have indented : progress.ownerAt record.depth ≠ none ↔ 0 < record.depth := by
    rw [ne_eq, Progress.ownerAt_eq_none_iff shallow, Nat.pos_iff_ne_zero]
  rw [← indented]
  generalize progress.ownerAt record.depth = owner at declares
  cases declares with
  | cls tag | field tag | method tag | parameter tag | comment tag => simp [tag]

section More

variable {progress progress' : Progress n}

/-- Where more is open, the same is around a record that fits where less is. -/
theorem Progress.take_paths_eq (more : progress.paths <+: progress'.paths) {depth : Nat}
    (shallow : depth ≤ progress.opened.length)
    : progress'.paths.take depth = progress.paths.take depth := by
  have bound : depth ≤ progress.paths.length := by
    rw [paths, List.length_map]
    exact shallow
  obtain ⟨further, whole⟩ := more
  rw [← whole, List.take_append_of_le_length bound]

/-- After a record that fits where less is open, the same is open. -/
theorem Progress.paths_advance_eq (more : progress.paths <+: progress'.paths) {record : Record}
    (shallow : record.depth ≤ progress.opened.length) (line : Nat)
    (declared : Option (Declaration n))
    : (progress'.advance { record with line := line } declared).paths
      = (progress.advance record declared).paths := by
  have around_eq := take_paths_eq more shallow
  cases declared with
  | none => rw [paths_advance_none, paths_advance_none, around_eq]
  | some declaration => rw [paths_advance_some, paths_advance_some, around_eq]

/-- A record that can be read can be read again where at least as much is open. It declares the
same there, whatever the table and the number of its line are.
-/
theorem step_again (more : progress.paths <+: progress'.paths) {line line' : Text.Line}
    {record : Record} {declared : Option (Declaration n)} (decoded : line.record = .ok record)
    (shallow : record.depth ≤ progress.opened.length)
    (declares : Declares n (progress.ownerAt record.depth) record declared)
    (same : line'.text = line.text)
    : step progress' line'
      = .ok (progress'.advance { record with line := line'.number } declared) := by
  have shallow' : record.depth ≤ progress'.opened.length := by
    have longer := more.length_le
    rw [Progress.paths, Progress.paths, List.length_map, List.length_map] at longer
    exact Nat.le_trans shallow longer
  have owner_eq : progress.ownerAt record.depth = progress'.ownerAt record.depth := by
    rw [Progress.ownerAt_eq, Progress.ownerAt_eq, Progress.take_paths_eq more shallow]
  have renumbered := Text.Line.record_of_text_eq decoded same
  exact step_eq_ok_iff.mpr
    ⟨_, _, renumbered, shallow', (owner_eq ▸ declares).of_toRow_eq rfl, rfl⟩

end More

/-- (Ahead progress progress') says that whatever can follow the first can follow the second: it
has made the same table, and has at least the same records open.
-/
structure Ahead (progress progress' : Progress n) : Prop where
  table : progress.table = progress'.table
  paths : progress.paths <+: progress'.paths

theorem Ahead.step_comment {progress progress' next : Progress n}
    (ahead : Ahead progress progress') {line : Text.Line} (comment : isComment line.text = true)
    (read : step progress line = .ok next)
    : Ahead next progress' := by
  obtain ⟨record, declared, decoded, shallow, declares, rfl⟩ := step_eq_ok_iff.mp read
  obtain rfl := (declares_none_iff_of_placed shallow declares).mpr
    ((isComment_iff decoded).mp comment)
  refine ⟨ahead.table, ?_⟩
  rw [Progress.paths_advance_none]
  exact (List.take_prefix _ _).trans ahead.paths

theorem Ahead.step_other {progress progress' next : Progress n}
    (ahead : Ahead progress progress') {line line' : Text.Line}
    (other : isComment line.text = false) (same : line'.text = line.text)
    (read : step progress line = .ok next)
    : ∃ next', step progress' line' = .ok next' ∧ Ahead next next' := by
  obtain ⟨record, declared, decoded, shallow, declares, rfl⟩ := step_eq_ok_iff.mp read
  cases declared with
  | none =>
      have comment := (isComment_iff decoded).mpr
        ((declares_none_iff_of_placed shallow declares).mp rfl)
      exact absurd (other.symm.trans comment) (by decide)
  | some declaration =>
      refine ⟨_, step_again ahead.paths decoded shallow declares same, ?_⟩
      constructor
      · rw [Progress.advance, Progress.advance, ahead.table]
      · rw [Progress.paths_advance_eq ahead.paths shallow]

/-- A run goes on without the comments as with them, by induction on the lines. -/
theorem Ahead.run {lines lines' : List Text.Line} {progress progress' last : Progress n}
    (ahead : Ahead progress progress')
    (without : lines'.map Text.Line.text
      = (lines.map Text.Line.text).filter fun text => !isComment text)
    (run : lines.foldlM step progress = .ok last)
    : ∃ last', lines'.foldlM step progress' = .ok last' ∧ Ahead last last' := by
  induction lines generalizing lines' progress progress' with
  | nil =>
      obtain rfl := List.map_eq_nil_iff.mp without
      obtain rfl := Except.ok.inj run
      exact ⟨progress', rfl, ahead⟩
  | cons line lines ih =>
      rw [List.foldlM_cons] at run
      obtain ⟨next, read, later⟩ := Outcome.bind_eq_ok_iff.mp run
      rw [List.map_cons, List.filter_cons] at without
      cases comment : isComment line.text with
      | true =>
          rw [if_neg (by simp [comment])] at without
          exact ih (ahead.step_comment comment read) without later
      | false =>
          rw [if_pos (by simp [comment])] at without
          obtain ⟨line', lines', rfl, same, rest⟩ := List.map_eq_cons_iff.mp without
          obtain ⟨next', read', ahead'⟩ := ahead.step_other comment same read
          obtain ⟨last', run', ahead_last⟩ := ih ahead' rest later
          refine ⟨last', ?_, ahead_last⟩
          rw [List.foldlM_cons]
          exact Outcome.bind_eq_ok_iff.mpr ⟨next', read', run'⟩

-----------------------------------------------------------------------------------------
-- Files with and without comments
-----------------------------------------------------------------------------------------

/-- The content of a file without the lines that are comments. -/
def withoutComments (content : ByteArray) : ByteArray :=
  ⟨(Text.deleteLines 10 13 (fun line => isComment (Text.decode line))
    content.data.toList).toArray⟩

/-- The other lines are left, with new numbers. -/
theorem map_text_withoutComments (content : ByteArray)
    : (Text.Line.ofContent (withoutComments content)).map Text.Line.text
      = ((Text.Line.ofContent content).map Text.Line.text).filter fun text => !isComment text := by
  rw [Text.Line.map_text_ofContent, Text.Line.map_text_ofContent, withoutComments, List.filter_map]
  simp only [Text.splitLines_deleteLines]
  rfl

/-- Deleting the comments from a file that is read leaves one with the same table. -/
theorem read_withoutComments {content : ByteArray} {table : Table n}
    (done : Format.nested.read n content = .ok table)
    : Format.nested.read n (withoutComments content) = .ok table := by
  have without := map_text_withoutComments content
  have whole (content : ByteArray)
      : Format.nested.read n content = read n (Text.Line.ofContent content) := rfl
  rw [whole, read_eq_ok_iff] at done
  obtain ⟨enough, first, rest, header, labels, last, lines, decoded, labelled, run, rfl⟩ := done
  obtain ⟨tag, fields, nonempty⟩ := headerLabels_eq_ok_iff.mp labelled
  have no_comment : ¬isComment first.text = true := by
    rw [isComment_iff decoded, tag]
    simp
  rw [lines, List.map_cons, List.filter_cons, if_pos (by simpa using no_comment)] at without
  obtain ⟨first', rest', lines', same, rest_eq⟩ := List.map_eq_cons_iff.mp without
  have start : Ahead (⟨Table.empty labels, []⟩ : Progress n) ⟨Table.empty labels, []⟩ :=
    ⟨rfl, List.prefix_refl _⟩
  obtain ⟨last', run', ahead⟩ := start.run rest_eq run
  rw [whole, read_eq_ok_iff]
  have renumbered := Text.Line.record_of_text_eq decoded same
  exact ⟨enough, first', rest', _, labels, last', lines', renumbered,
    headerLabels_eq_ok_iff.mpr ⟨tag, fields, nonempty⟩, run', ahead.table⟩

end Nested

end NameTables
