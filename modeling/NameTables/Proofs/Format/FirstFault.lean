import NameTables.Format
import NameTables.Proofs.FirstFailure
import NameTables.Proofs.Flat.Steps
import NameTables.Proofs.Format.Deletion
import NameTables.Proofs.Nested.Steps

/-! The line that a failing read blames.
A reader takes one line after the other, so it fails at the first line that it cannot take. The
lines before that one make a file of their own, and the lines after it have no say in the failure.
-/

namespace NameTables

-----------------------------------------------------------------------------------------
-- Failures that blame one line
-----------------------------------------------------------------------------------------

/-- Whatever goes wrong is a malformation of this line. -/
def Outcome.BlamesOnly {α : Type} (line : Nat) (outcome : Outcome α) : Prop :=
  ∀ failure, outcome = .error failure → ∃ what, failure.cause = .malformed line what

namespace Outcome.BlamesOnly

variable {α β : Type} {line : Nat}

theorem ok {a : α} : BlamesOnly line (.ok a : Outcome α) := by
  intro failure fails
  cases fails

theorem fail {record : Record} {what : Malformation}
    : BlamesOnly record.line (record.fail what : Outcome α) := by
  intro failure fails
  cases fails
  exact ⟨what, rfl⟩

/-- A sequence blames the line that both its parts blame. -/
theorem bind {first : Outcome α} {next : α → Outcome β} (blames : BlamesOnly line first)
    (later : ∀ a, first = .ok a → BlamesOnly line (next a))
    : BlamesOnly line (first >>= next) := by
  intro failure fails
  rcases Outcome.bind_eq_error_iff.mp fails with here | ⟨a, done, there⟩
  · exact blames failure here
  · exact later a done failure there

/-- What was being done is no cause. -/
theorem within {activity : Activity} {outcome : Outcome α} (blames : BlamesOnly line outcome)
    : BlamesOnly line (outcome.within activity) := by
  intro failure fails
  obtain ⟨inner, failed, rfl⟩ := Outcome.within_eq_error_iff.mp fails
  exact blames inner failed

end Outcome.BlamesOnly

namespace Record

variable {n : Nat} {kind : Kind}

theorem take_blames {record : Record} : record.take.BlamesOnly record.line := by
  unfold take
  split
  · exact .ok
  · exact .fail

/-- What is left of a record stands on the same line. -/
theorem line_of_take {record rest : Record} {field : String}
    (taken : record.take = .ok (field, rest))
    : rest.line = record.line := by
  rw [(take_eq_ok_iff.mp taken).2]

theorem names_blames {record : Record} : (record.names n kind).BlamesOnly record.line := by
  unfold names
  split
  · exact .fail
  · exact .ok

theorem keyedNames_blames {record : Record}
    : (record.keyedNames n kind).BlamesOnly record.line := by
  refine names_blames.bind fun names _ => ?_
  split
  · exact .ok
  · exact .fail

theorem takeFieldDescriptor_blames {record : Record}
    : record.takeFieldDescriptor.BlamesOnly record.line :=
  take_blames.bind fun _ _ => .ok

theorem line_of_takeFieldDescriptor {record rest : Record} {descriptor : Option Descriptor}
    (described : record.takeFieldDescriptor = .ok (descriptor, rest))
    : rest.line = record.line := by
  obtain ⟨text, taken, _⟩ := takeFieldDescriptor_eq_ok_iff.mp described
  exact line_of_take taken

theorem takeMethodDescriptor_blames {record : Record}
    : record.takeMethodDescriptor.BlamesOnly record.line := by
  refine take_blames.bind fun cut taken => ?_
  rw [← line_of_take taken]
  obtain ⟨text, rest⟩ := cut
  dsimp only
  split
  · exact .fail
  · exact .ok

theorem line_of_takeMethodDescriptor {record rest : Record} {descriptor : Descriptor}
    (described : record.takeMethodDescriptor = .ok (descriptor, rest))
    : rest.line = record.line :=
  line_of_take (takeMethodDescriptor_eq_ok_iff.mp described).1

end Record

/-- (line.Blamed cause) blames the line for its text, or for having none. -/
def Text.Line.Blamed (line : Text.Line) (cause : Cause) : Prop :=
  (line.text ≠ none → ∃ what, cause = .malformed line.number what)
  ∧ (line.text = none → cause = .file .undecodable)

/-- A line that is no text is blamed for that. -/
theorem Text.Line.blamed_of_record {line : Text.Line} {failure : Failure}
    (undecodable : line.record = .error failure)
    : line.Blamed failure.cause := by
  unfold Text.Line.record at undecodable
  split at undecodable
  · cases undecodable
  · next none_there =>
    cases undecodable
    exact ⟨fun some_there => absurd none_there some_there, fun _ => rfl⟩

/-- What goes wrong in the record of a line is blamed on the line. -/
theorem Text.Line.blamed_of_blamesOnly {α : Type} {line : Text.Line} {record : Record}
    {outcome : Outcome α} {failure : Failure} (decoded : line.record = .ok record)
    (blames : outcome.BlamesOnly record.line) (fails : outcome = .error failure)
    : line.Blamed failure.cause := by
  obtain ⟨text, there, rfl⟩ := Text.Line.record_eq_ok_iff.mp decoded
  exact ⟨fun _ => blames failure fails, fun gone => by rw [there] at gone; cases gone⟩

/-- A reader fails at a line behind the header. The lines before it make a file of their own, the
lines after it have no say in the failure, and the line is blamed.
-/
def FailsBehind {n : Nat} (reader : List Text.Line → Outcome (Table n)) (header : Text.Line)
    (lines : List Text.Line) (failure : Failure)
    : Prop :=
  ∃ front line back,
    lines = front ++ line :: back
    ∧ header ∈ front
    ∧ (∃ table, reader front = .ok table)
    ∧ (∀ more, reader (front ++ line :: more) = .error failure)
    ∧ line.Blamed failure.cause

-----------------------------------------------------------------------------------------
-- Flat files
-----------------------------------------------------------------------------------------

namespace Flat

variable {n : Nat}

theorem declaration_blames {record : Record}
    : (declaration n record).BlamesOnly record.line := by
  unfold declaration
  split
  · exact .fail
  split
  · exact Record.keyedNames_blames.bind fun _ _ => .ok
  split
  · refine Record.take_blames.bind fun owned taken => ?_
    rw [← Record.line_of_take taken]
    refine Record.takeFieldDescriptor_blames.bind fun rest described => ?_
    rw [← Record.line_of_takeFieldDescriptor described]
    exact Record.keyedNames_blames.bind fun _ _ => .ok
  split
  · refine Record.take_blames.bind fun owned taken => ?_
    rw [← Record.line_of_take taken]
    refine Record.takeMethodDescriptor_blames.bind fun rest described => ?_
    rw [← Record.line_of_takeMethodDescriptor described]
    exact Record.keyedNames_blames.bind fun _ _ => .ok
  · exact .fail

theorem step_blamed {table : Table n} {line : Text.Line} {failure : Failure}
    (fails : step table line = .error failure)
    : line.Blamed failure.cause := by
  rcases Outcome.bind_eq_error_iff.mp fails with undecodable | ⟨record, decoded, fails⟩
  · exact Text.Line.blamed_of_record undecodable
  · refine Text.Line.blamed_of_blamesOnly decoded ?_ fails
    exact declaration_blames.bind fun _ _ => .ok

/-- After its header, a file is read line by line. -/
theorem read_eq_foldlM {lines rest : List Text.Line} {header : Text.Line} {labels : Labels n}
    (enough : 2 ≤ n) (filled : lines.filter (·.text ≠ some "") = header :: rest)
    (accepted : header.record >>= headerLabels n = .ok labels)
    : read n lines = rest.foldlM step (Table.empty labels) := by
  obtain ⟨record, decoded, labelled⟩ := Outcome.bind_eq_ok_iff.mp accepted
  rw [read, if_neg (Nat.not_lt.mpr enough), filled]
  simp only [decoded, labelled, Bind.bind, Except.bind]

/-- A reading that fails does so at a line behind the header. -/
theorem read_failsBehind {lines : List Text.Line} {header : Text.Line} {labels : Labels n}
    {failure : Failure} (enough : 2 ≤ n) (first : lines.find? (·.text ≠ some "") = some header)
    (accepted : header.record >>= headerLabels n = .ok labels)
    (fails : read n lines = .error failure)
    : FailsBehind (read n) header lines failure := by
  rw [← List.head?_filter, List.head?_eq_some_iff] at first
  obtain ⟨rest, filled⟩ := first
  rw [read_eq_foldlM enough filled accepted] at fails
  obtain ⟨before, line, after, table, rfl, run, fault⟩ := Outcome.foldlM_eq_error_iff.mp fails
  rw [← List.cons_append, List.filter_eq_append_iff] at filled
  obtain ⟨front, back, rfl, kept, later⟩ := filled
  obtain ⟨skipped, back, rfl, empty, filled, -⟩ := List.filter_eq_cons_iff.mp later
  -- The empty lines between the last good line and the bad one are skipped with the good ones.
  have kept : (front ++ skipped).filter (·.text ≠ some "") = header :: before := by
    rw [List.filter_append, kept, List.filter_eq_nil_iff.mpr empty, List.append_nil]
  refine ⟨front ++ skipped, line, back, by simp, ?_, ⟨table, ?_⟩, fun more => ?_,
    step_blamed fault⟩
  · exact List.mem_of_mem_filter (kept ▸ List.mem_cons_self)
  · rw [read_eq_foldlM enough kept accepted]
    exact run
  · have whole : (front ++ skipped ++ line :: more).filter (·.text ≠ some "")
        = header :: (before ++ line :: more.filter (·.text ≠ some "")) := by
      rw [List.filter_append, kept, List.cons_append, List.filter_cons, if_pos filled]
    rw [read_eq_foldlM enough whole accepted]
    exact Outcome.foldlM_eq_error_iff.mpr ⟨before, line, _, table, rfl, run, fault⟩

/-- The lines up to any one behind the header make a file of their own. -/
theorem exists_read_front {front back : List Text.Line} {header : Text.Line} {labels : Labels n}
    {table : Table n} (enough : 2 ≤ n)
    (first : (front ++ back).find? (·.text ≠ some "") = some header) (headed : header ∈ front)
    (accepted : header.record >>= headerLabels n = .ok labels)
    (whole : read n (front ++ back) = .ok table)
    : ∃ table, read n front = .ok table := by
  have filled := List.find?_some first
  have among : header ∈ front.filter (·.text ≠ some "") := by
    rw [List.mem_filter]
    exact ⟨headed, filled⟩
  rw [← List.head?_filter, List.head?_eq_some_iff, List.filter_append] at first
  obtain ⟨rest, split⟩ := first
  cases kept : front.filter (·.text ≠ some "") with
  | nil =>
      rw [kept] at among
      cases among
  | cons line before =>
      rw [kept, List.cons_append, List.cons.injEq] at split
      obtain ⟨rfl, rfl⟩ := split
      rw [read_eq_foldlM enough (by rw [List.filter_append, kept, List.cons_append]) accepted,
        List.foldlM_append] at whole
      obtain ⟨reached, run, _⟩ := Outcome.bind_eq_ok_iff.mp whole
      exact ⟨reached, (read_eq_foldlM enough kept accepted).trans run⟩

end Flat

-----------------------------------------------------------------------------------------
-- Nested files
-----------------------------------------------------------------------------------------

namespace Nested

variable {n : Nat}

theorem withinAll_blames {α : Type} {line : Nat} {opened : List Open} {outcome : Outcome α}
    (blames : outcome.BlamesOnly line)
    : (withinAll opened outcome).BlamesOnly line := by
  induction opened with
  | nil => exact blames
  | cons record opened ih => exact ih.within

theorem comment_blames {record : Record}
    : (comment record : Outcome (Option (Declaration n))).BlamesOnly record.line := by
  unfold comment
  split
  · exact .ok
  · exact .fail

theorem declaration_blames {owner : Option Path} {record : Record}
    : (declaration n owner record).BlamesOnly record.line := by
  cases owner with
  | none =>
      rw [declaration]
      split
      · exact Record.keyedNames_blames.bind fun _ _ => .ok
      · exact .fail
  | some path =>
      cases path with
      | cls owner =>
          rw [declaration]
          split
          · refine Record.takeFieldDescriptor_blames.bind fun rest described => ?_
            rw [← Record.line_of_takeFieldDescriptor described]
            exact Record.keyedNames_blames.bind fun _ _ => .ok
          split
          · refine Record.takeMethodDescriptor_blames.bind fun rest described => ?_
            rw [← Record.line_of_takeMethodDescriptor described]
            exact Record.keyedNames_blames.bind fun _ _ => .ok
          · exact comment_blames
      | method owner key =>
          rw [declaration]
          split
          · refine Record.take_blames.bind fun cut taken => ?_
            rw [← Record.line_of_take taken]
            obtain ⟨text, rest⟩ := cut
            dsimp only
            split
            · exact .fail
            · exact Record.names_blames.bind fun _ _ => .ok
          · exact comment_blames
      | field => exact comment_blames
      | parameter => exact comment_blames

/-- The open records add to what was being done, and leave the cause as it is. -/
theorem cause_of_withinAll {α : Type} {opened : List Open} {outcome : Outcome α}
    {failure : Failure} (fails : withinAll opened outcome = .error failure)
    : ∃ inner, outcome = .error inner ∧ failure.cause = inner.cause := by
  induction opened generalizing failure with
  | nil => exact ⟨failure, fails, rfl⟩
  | cons record opened ih =>
      obtain ⟨inner, failed, rfl⟩ := Outcome.within_eq_error_iff.mp fails
      obtain ⟨root, there, same⟩ := ih failed
      exact ⟨root, there, same⟩

theorem step_blamed {progress : Progress n} {line : Text.Line} {failure : Failure}
    (fails : step progress line = .error failure)
    : line.Blamed failure.cause := by
  rcases Outcome.bind_eq_error_iff.mp fails with undecodable | ⟨record, decoded, fails⟩
  · obtain ⟨inner, failed, same⟩ := cause_of_withinAll undecodable
    rw [same]
    exact Text.Line.blamed_of_record failed
  · rw [withinAll_eq_ok_iff] at decoded
    refine Text.Line.blamed_of_blamesOnly decoded ?_ fails
    split
    · exact withinAll_blames .fail
    · refine (withinAll_blames declaration_blames.within).bind fun declared _ => ?_
      cases declared <;> exact .ok

/-- After its header, a file is read line by line. -/
theorem read_eq_foldlM {rest : List Text.Line} {header : Text.Line} {labels : Labels n}
    (enough : 2 ≤ n) (accepted : header.record >>= headerLabels n = .ok labels)
    : read n (header :: rest)
      = (do
          let progress ←
            Outcome.within .readingLines (rest.foldlM step ⟨Table.empty labels, []⟩)
          return progress.table) := by
  obtain ⟨record, decoded, labelled⟩ := Outcome.bind_eq_ok_iff.mp accepted
  rw [read, if_neg (Nat.not_lt.mpr enough)]
  simp only [decoded, labelled, Bind.bind, Except.bind]

/-- A reading that fails does so at a line behind the header. -/
theorem read_failsBehind {rest : List Text.Line} {header : Text.Line} {labels : Labels n}
    {failure : Failure} (enough : 2 ≤ n)
    (accepted : header.record >>= headerLabels n = .ok labels)
    (fails : read n (header :: rest) = .error failure)
    : FailsBehind (read n) header (header :: rest) failure := by
  have at_fault (lines : List Text.Line)
      : read n (header :: lines) = .error failure
        ↔ ∃ inner, lines.foldlM step ⟨Table.empty labels, []⟩ = .error inner
            ∧ failure = inner.within .readingLines := by
    rw [read_eq_foldlM enough accepted, Outcome.bind_eq_error_iff,
      Outcome.within_eq_error_iff]
    simp [Pure.pure, Except.pure]
  obtain ⟨inner, stopped, rfl⟩ := (at_fault rest).mp fails
  obtain ⟨before, line, after, progress, rfl, run, fault⟩ :=
    Outcome.foldlM_eq_error_iff.mp stopped
  have blamed := step_blamed fault
  refine ⟨header :: before, line, after, rfl, List.mem_cons_self, ⟨progress.table, ?_⟩,
    fun more => ?_, blamed⟩
  · rw [read_eq_foldlM enough accepted, run]
    rfl
  · exact (at_fault _).mpr
      ⟨inner, Outcome.foldlM_eq_error_iff.mpr ⟨before, line, more, progress, rfl, run, fault⟩, rfl⟩

/-- The lines up to any one behind the header make a file of their own. -/
theorem exists_read_front {front back : List Text.Line} {header : Text.Line} {labels : Labels n}
    {table : Table n} (enough : 2 ≤ n)
    (accepted : header.record >>= headerLabels n = .ok labels)
    (whole : read n (header :: front ++ back) = .ok table)
    : ∃ table, read n (header :: front) = .ok table := by
  rw [List.cons_append, read_eq_foldlM enough accepted, Outcome.bind_eq_ok_iff] at whole
  obtain ⟨progress, run, _⟩ := whole
  rw [Outcome.within_eq_ok_iff, List.foldlM_append] at run
  obtain ⟨reached, run, _⟩ := Outcome.bind_eq_ok_iff.mp run
  refine ⟨reached.table, ?_⟩
  rw [read_eq_foldlM enough accepted, run]
  rfl

end Nested

-----------------------------------------------------------------------------------------
-- The first lines of a file
-----------------------------------------------------------------------------------------

/-- What is left of a file when it is cut off behind its first `count` lines. -/
def Text.firstLines (count : Nat) (content : ByteArray) : ByteArray :=
  ⟨((chunks 10 content.data.toList).take count).flatten.toArray⟩

theorem Text.splitLines_take_chunks {α : Type} [DecidableEq α] (lf cr : α) (count : Nat)
    (xs : List α)
    : splitLines lf cr ((chunks lf xs).take count).flatten
      = (splitLines lf cr xs).take count := by
  obtain ⟨pieces, last, rfl, absent, last_absent⟩ := exists_pieces lf xs
  have cut : chunks lf (pieces.flatMap (· ++ [lf]) ++ last)
      = pieces.map (· ++ [lf]) ++ [last] := by
    simp [chunks, splitOn_flatMap absent last_absent]
  rw [cut, splitLines_flatMap cr absent last_absent]
  rcases Nat.lt_or_ge pieces.length count with whole | part
  · -- The last piece is among them, if it is a line at all.
    have pieces_length : (pieces.map (dropReturn cr) ++ [last].filter (· ≠ [])).length ≤ count := by
      have := List.length_filter_le (· ≠ []) [last]
      simp only [List.length_append, List.length_map, List.length_singleton] at *
      omega
    rw [List.take_of_length_le (by simpa using Nat.succ_le_of_lt whole),
      List.take_of_length_le pieces_length, List.flatten_append, ← List.flatMap_def,
      List.flatten_singleton, splitLines_flatMap cr absent last_absent]
  · rw [List.take_append_of_le_length (by simpa using part),
      List.take_append_of_le_length (by simpa using part), ← List.map_take, ← List.map_take,
      ← List.flatMap_def]
    have first_absent : ∀ piece ∈ pieces.take count, lf ∉ piece :=
      fun piece member => absent piece (List.mem_of_mem_take member)
    simpa using splitLines_flatMap cr first_absent List.not_mem_nil

/-- The lines of a file that is cut off are the first lines of the file. -/
theorem Text.Line.ofContent_firstLines (count : Nat) (content : ByteArray)
    : ofContent (firstLines count content) = (ofContent content).take count := by
  rw [ofContent, ofContent, firstLines, List.toList_toArray, splitLines_take_chunks,
    ← List.map_take]
  congr 1
  apply List.ext_getElem?
  intro i
  simp only [List.getElem?_zipIdx, List.getElem?_take]
  split <;> rfl

/-- A line with the number `i + 1` has `i` lines before it. -/
theorem Text.Line.number_of_getElem? {content : ByteArray} {i : Nat} {line : Line}
    (there : (ofContent content)[i]? = some line)
    : line.number = i + 1 := by
  rw [ofContent, List.getElem?_map, List.getElem?_zipIdx, Option.map_eq_some_iff] at there
  obtain ⟨⟨bytes, number⟩, counted, rfl⟩ := there
  rw [Option.map_eq_some_iff] at counted
  obtain ⟨bytes, _, same⟩ := counted
  rw [← (Prod.mk.inj same).2, Nat.add_comm]

/-- The first lines are those with the least numbers. -/
theorem Text.Line.mem_take_ofContent_iff {content : ByteArray} {count : Nat} {line : Line}
    : line ∈ (ofContent content).take count
      ↔ line ∈ ofContent content ∧ line.number ≤ count := by
  simp only [List.mem_iff_getElem?, List.getElem?_take]
  constructor
  · intro given
    rcases given with ⟨i, there⟩
    split at there
    · next below => exact ⟨⟨i, there⟩, number_of_getElem? there ▸ below⟩
    · cases there
  · intro given
    rcases given with ⟨⟨i, there⟩, bound⟩
    rw [number_of_getElem? there] at bound
    exact ⟨i, by rw [if_pos (Nat.lt_of_succ_le bound), there]⟩

-----------------------------------------------------------------------------------------
-- Both formats
-----------------------------------------------------------------------------------------

namespace Format

variable {n : Nat}

/-- The line with the header, which is the first one. Flat files may have empty lines before it. -/
def headerLine? (format : Format) (lines : List Text.Line) : Option Text.Line :=
  match format with
  | .flat => lines.find? (·.text ≠ some "")
  | .nested => lines.head?

theorem mem_of_headerLine? {format : Format} {lines : List Text.Line} {header : Text.Line}
    (first : format.headerLine? lines = some header)
    : header ∈ lines := by
  cases format with
  | flat => exact List.mem_of_find?_eq_some first
  | nested => exact List.mem_of_head? first

/-- The labels in the record of a header. -/
def headerLabels (format : Format) (n : Nat) (record : Record) : Outcome (Labels n) :=
  match format with
  | .flat => Flat.headerLabels n record
  | .nested => Nested.headerLabels n record

/-- The table that the lines of a file hold. -/
def readLines (format : Format) (n : Nat) (lines : List Text.Line) : Outcome (Table n) :=
  match format with
  | .flat => Flat.read n lines
  | .nested => Nested.read n lines

theorem read_eq_readLines (format : Format) (content : ByteArray)
    : format.read n content = format.readLines n (Text.Line.ofContent content) := by
  cases format <;> rfl

variable {format : Format} {lines front back : List Text.Line} {header : Text.Line}
  {labels : Labels n}

theorem readLines_failsBehind {failure : Failure} (enough : 2 ≤ n)
    (first : format.headerLine? lines = some header)
    (accepted : header.record >>= format.headerLabels n = .ok labels)
    (fails : format.readLines n lines = .error failure)
    : FailsBehind (format.readLines n) header lines failure := by
  cases format with
  | flat => exact Flat.read_failsBehind enough first accepted fails
  | nested =>
      obtain ⟨rest, rfl⟩ := List.head?_eq_some_iff.mp first
      exact Nested.read_failsBehind enough accepted fails

theorem exists_readLines_front {table : Table n} (enough : 2 ≤ n)
    (first : format.headerLine? (front ++ back) = some header) (headed : header ∈ front)
    (accepted : header.record >>= format.headerLabels n = .ok labels)
    (whole : format.readLines n (front ++ back) = .ok table)
    : ∃ table, format.readLines n front = .ok table := by
  cases format with
  | flat => exact Flat.exists_read_front enough first headed accepted whole
  | nested =>
      cases front with
      | nil => cases headed
      | cons line front =>
          obtain rfl := Option.some.inj first
          exact Nested.exists_read_front enough accepted whole

/-- A reader with an accepted header fails at the first bad line and blames that one: the file up to
the line is accepted, every file that begins with the same lines fails alike, and the cause is a
malformation of the line or that it is no text. A file that is accepted stays so when it is cut off
behind any line after the header.
-/
theorem read_blames_first_bad_line {content : ByteArray} (enough : 2 ≤ n)
    (first : format.headerLine? (Text.Line.ofContent content) = some header)
    (accepted : header.record >>= format.headerLabels n = .ok labels)
    : (∀ failure, format.read n content = .error failure →
        ∃ line ∈ Text.Line.ofContent content,
          header.number < line.number
          ∧ (∃ table, format.read n (Text.firstLines (line.number - 1) content) = .ok table)
          ∧ (∀ other,
              (Text.Line.ofContent other).take line.number
                = (Text.Line.ofContent content).take line.number →
              format.read n other = .error failure)
          ∧ (line.text ≠ none → ∃ what, failure.cause = .malformed line.number what)
          ∧ (line.text = none → failure.cause = .file .undecodable))
      ∧ (∀ table, format.read n content = .ok table → ∀ count, header.number ≤ count →
          ∃ table, format.read n (Text.firstLines count content) = .ok table) := by
  simp only [read_eq_readLines, Text.Line.ofContent_firstLines]
  constructor
  · intro failure fails
    obtain ⟨front, line, back, split, headed, before, alike, blamed⟩ :=
      readLines_failsBehind enough first accepted fails
    have there : (Text.Line.ofContent content)[front.length]? = some line := by simp [split]
    have number := Text.Line.number_of_getElem? there
    have front_first : (Text.Line.ofContent content).take front.length = front := by simp [split]
    have header_first : header.number ≤ front.length := by
      rw [← front_first] at headed
      exact (Text.Line.mem_take_ofContent_iff.mp headed).2
    refine ⟨line, by simp [split], by omega, ?_, fun other same => ?_, blamed⟩
    · rw [number, Nat.add_sub_cancel, front_first]
      exact before
    · have through : (Text.Line.ofContent content).take line.number = front ++ [line] := by
        rw [number, split, List.take_length_add_append]
        rfl
      rw [← List.take_append_drop line.number (Text.Line.ofContent other), same, through,
        List.append_assoc, List.singleton_append]
      exact alike _
  · intro table whole count kept
    have headed : header ∈ (Text.Line.ofContent content).take count :=
      Text.Line.mem_take_ofContent_iff.mpr ⟨mem_of_headerLine? first, kept⟩
    rw [← List.take_append_drop count (Text.Line.ofContent content)] at first whole
    exact exists_readLines_front enough first headed accepted whole

/-- A parameter whose index is no number, and behind it a method without a descriptor. -/
def misnumbered : ByteArray :=
  ("tiny\t2\t0\tx\ty\nc\ta\tA\n\tm\t()V\tm\trun\n\t\tp\tone\t\tcount\n"
    ++ "\tm\t\tn\tstop\n").toUTF8

theorem read_blames_misnumbered
    : ∃ failure,
        nested.read 2 misnumbered = .error failure
        ∧ failure = ⟨[.readingLines, .inLine 2, .inLine 3, .inLine 4],
            .malformed 4 (.parameterIndex "one" .invalid)⟩
        ∧ ∃ line ∈ Text.Line.ofContent misnumbered,
            1 < line.number
            ∧ (∃ table : Table 2,
                nested.read 2 (Text.firstLines (line.number - 1) misnumbered) = .ok table)
            ∧ (∀ other,
                (Text.Line.ofContent other).take line.number
                  = (Text.Line.ofContent misnumbered).take line.number →
                nested.read 2 other = .error failure)
            ∧ (line.text ≠ none → ∃ what, failure.cause = .malformed line.number what)
            ∧ (line.text = none → failure.cause = .file .undecodable) := by
  have first : nested.headerLine? (Text.Line.ofContent misnumbered)
      = some ⟨1, some "tiny\t2\t0\tx\ty"⟩ := by
    decide +kernel
  have accepted : Text.Line.record ⟨1, some "tiny\t2\t0\tx\ty"⟩ >>= nested.headerLabels 2
      = .ok ⟨#v["x", "y"]⟩ := by
    decide +kernel
  have fails : nested.read 2 misnumbered
      = .error ⟨[.readingLines, .inLine 2, .inLine 3, .inLine 4],
          .malformed 4 (.parameterIndex "one" .invalid)⟩ := by
    decide +kernel
  exact ⟨_, fails, rfl, (read_blames_first_bad_line (by decide) first accepted).1 _ fails⟩

end Format

end NameTables
