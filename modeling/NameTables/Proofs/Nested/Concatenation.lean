import NameTables.Proofs.Nested.Listing
import NameTables.Proofs.Table.Merging
import NameTables.Proofs.Table.Origins

/-! Bodies that are put together.
What is still open at the end of a body does not matter to the next one, which begins with records
that belong to nothing. So the lines of the next body declare what they declare alone, and its table
is merged into the one that is there.
-/

namespace NameTables

variable {n : Nat}

namespace Nested

/-- A record that declares something declares it in the table. -/
theorem Progress.table_advance (progress : Progress n) (record : Record)
    (declared : Option (Declaration n))
    : (progress.advance record declared).table = progress.table.declareAll declared.toList := by
  cases declared <;> rfl

/-- What a record declares can be declared where it is read, and what follows it can then. -/
theorem Ordered.of_advance {progress : Progress n} {record : Record}
    {declared : Option (Declaration n)} (chained : Chained progress.paths)
    (declares : Declares n (progress.ownerAt record.depth) record declared)
    {declarations : List (Declaration n)}
    (later
      : Ordered (progress.advance record declared).paths (declarations.map Declaration.path))
    : Ordered progress.paths ((declared.toList ++ declarations).map Declaration.path) := by
  cases declared with
  | none =>
      rw [Progress.paths_advance_none] at later
      exact later.of_prefix (List.take_prefix _ _)
  | some declaration =>
      have above := chained.above_eq declares
      rw [Progress.paths_advance_some, ← above] at later
      exact ⟨above ▸ List.take_prefix _ _, later⟩

/-- A run makes certain declarations, and makes them again where at least as much is open, whatever
the table and the numbers of the lines are. By induction on the lines.
-/
theorem exists_declarations_of_run {lines : List Text.Line} {progress last : Progress n}
    (chained : Chained progress.paths) (run : lines.foldlM step progress = .ok last)
    : ∃ declarations : List (Declaration n),
        Ordered progress.paths (declarations.map Declaration.path)
        ∧ ∀ {progress' : Progress n} {lines' : List Text.Line},
            progress.paths <+: progress'.paths
            → lines'.map Text.Line.text = lines.map Text.Line.text
            → ∃ last', lines'.foldlM step progress' = .ok last'
              ∧ last'.table = progress'.table.declareAll declarations := by
  induction lines generalizing progress with
  | nil =>
      refine ⟨[], trivial, ?_⟩
      intro progress' lines' _ same
      obtain rfl := List.map_eq_nil_iff.mp same
      exact ⟨progress', rfl, rfl⟩
  | cons line lines ih =>
      rw [List.foldlM_cons] at run
      obtain ⟨next, read, later⟩ := Outcome.bind_eq_ok_iff.mp run
      obtain ⟨record, declared, decoded, shallow, declares, rfl⟩ := step_eq_ok_iff.mp read
      obtain ⟨declarations, ordered, again⟩ := ih (chained.advance declares) later
      refine ⟨declared.toList ++ declarations, ordered.of_advance chained declares, ?_⟩
      intro progress' lines' more same
      obtain ⟨line', lines', rfl, same, rest⟩ := List.map_eq_cons_iff.mp same
      have read' := step_again more decoded shallow declares same
      have open_after : (progress.advance record declared).paths
          <+: (progress'.advance { record with line := line'.number } declared).paths := by
        rw [Progress.paths_advance_eq more shallow]
      obtain ⟨last', run', made⟩ := again open_after rest
      refine ⟨last', ?_, ?_⟩
      · rw [List.foldlM_cons]
        exact Outcome.bind_eq_ok_iff.mpr ⟨_, read', run'⟩
      · rw [made, Progress.table_advance, Table.declareAll, Table.declareAll, Table.declareAll,
          List.foldl_append]

-----------------------------------------------------------------------------------------
-- Files with one header
-----------------------------------------------------------------------------------------

/-- A file with a header line and, behind it, a body. -/
def withHeader (header body : List UInt8) : ByteArray := ⟨(header ++ 10 :: body).toArray⟩

/-- The body is made of whole lines. -/
def Ended (body : List UInt8) : Prop := ∀ last ∈ body.getLast?, last = 10

instance (body : List UInt8) : Decidable (Ended body) :=
  inferInstanceAs (Decidable (∀ last ∈ body.getLast?, last = 10))

/-- The first line is the header, and the texts of the others are those of the body. -/
theorem exists_ofContent_withHeader {header : List UInt8} (one_line : 10 ∉ header)
    (body : List UInt8)
    : ∃ rest,
        Text.Line.ofContent (withHeader header body)
          = ⟨1, Text.decode (Text.dropReturn 13 header)⟩ :: rest
        ∧ rest.map Text.Line.text = (Text.splitLines 10 13 body).map Text.decode := by
  have ended : ∀ last ∈ (header ++ [10]).getLast?, last = 10 := by simp
  have bytes : (withHeader header body).data.toList = (header ++ [10]) ++ body := by
    simp [withHeader]
  rw [Text.Line.ofContent, bytes, Text.splitLines_append 13 ended,
    Text.splitLines_ended 13 one_line, List.singleton_append, List.zipIdx_cons, List.map_cons]
  refine ⟨_, rfl, ?_⟩
  have numbered := List.zipIdx_map_fst 2 (Text.splitLines 10 13 body)
  rw [List.map_map, ← numbered, List.map_map, numbered]
  rfl

/-- The header line holds these labels. -/
def HasLabels (header : List UInt8) (labels : Labels n) : Prop :=
  ∃ record, Text.Line.record ⟨1, Text.decode (Text.dropReturn 13 header)⟩ = .ok record
    ∧ headerLabels n record = .ok labels

theorem HasLabels.unique {header : List UInt8} {labels labels' : Labels n}
    (has : HasLabels header labels) (has' : HasLabels header labels')
    : labels = labels' := by
  obtain ⟨record, decoded, labelled⟩ := has
  obtain ⟨record', decoded', labelled'⟩ := has'
  obtain rfl := Except.ok.inj (decoded.symm.trans decoded')
  exact Except.ok.inj (labelled.symm.trans labelled')

/-- A body that is read makes certain declarations behind any lines, and its table of them. -/
theorem exists_declarations_of_read {header body : List UInt8} (one_line : 10 ∉ header)
    {table : Table n} (done : Format.nested.read n (withHeader header body) = .ok table)
    : ∃ labels declarations,
        HasLabels header labels ∧ OwnersDeclared declarations
        ∧ table = (Table.empty labels).declareAll declarations
        ∧ ∀ (progress : Progress n) {lines : List Text.Line},
            lines.map Text.Line.text = (Text.splitLines 10 13 body).map Text.decode
            → ∃ last, lines.foldlM step progress = .ok last
              ∧ last.table = progress.table.declareAll declarations := by
  obtain ⟨rest, lines_eq, texts⟩ := exists_ofContent_withHeader one_line body
  rw [Format.read, lines_eq, read_eq_ok_iff] at done
  obtain ⟨_, _, _, record, labels, last, same, decoded, labelled, run, rfl⟩ := done
  obtain ⟨rfl, rfl⟩ := List.cons.inj same
  let start : Progress n := ⟨Table.empty labels, []⟩
  have chained : Chained start.paths := chained_nil
  obtain ⟨declarations, ordered, again⟩ := exists_declarations_of_run chained run
  obtain ⟨last', run', made⟩ := again (List.prefix_refl _) rfl
  obtain rfl := Except.ok.inj (run.symm.trans run')
  refine ⟨labels, declarations, ⟨record, decoded, labelled⟩, ordered.ownersDeclared, made, ?_⟩
  intro progress lines same_texts
  exact again (List.nil_prefix : [] <+: progress.paths) (same_texts.trans texts.symm)

/-- The table of two bodies under one header is that of the first with that of the second merged
into it.
-/
theorem read_append {header first second : List UInt8} {left right : Table n}
    (one_line : 10 ∉ header) (ended : Ended first)
    (read_first : Format.nested.read n (withHeader header first) = .ok left)
    (read_second : Format.nested.read n (withHeader header second) = .ok right)
    : Format.nested.read n (withHeader header (first ++ second)) = .ok (left.merge right) := by
  have enough : 2 ≤ n := (read_eq_ok_iff.mp read_first).1
  have coherent := Format.read_coherent read_first
  have coherent' := Format.read_coherent read_second
  obtain ⟨labels, declarations, has, _, rfl, again⟩ :=
    exists_declarations_of_read one_line read_first
  obtain ⟨labels', declarations', has', closed', rfl, again'⟩ :=
    exists_declarations_of_read one_line read_second
  obtain rfl := has.unique has'
  obtain ⟨record, decoded, labelled⟩ := has
  obtain ⟨rest, lines_eq, texts⟩ := exists_ofContent_withHeader one_line (first ++ second)
  -- The lines of the first body come first, then those of the second one with other numbers.
  rw [Text.splitLines_append 13 ended, List.map_append] at texts
  obtain ⟨front, back, rfl, front_texts, back_texts⟩ := List.map_eq_append_iff.mp texts
  obtain ⟨middle, run_front, made_front⟩ := again ⟨Table.empty labels, []⟩ front_texts
  obtain ⟨last, run_back, made_back⟩ := again' middle back_texts
  have merged := Table.declareAll_eq_merge closed' (Nat.lt_of_lt_of_le Nat.zero_lt_two enough)
    coherent' coherent.described
  rw [Format.read, lines_eq, read_eq_ok_iff]
  refine ⟨enough, _, _, record, labels, last, rfl, decoded, labelled, ?_, ?_⟩
  · rw [List.foldlM_append]
    exact Outcome.bind_eq_ok_iff.mpr ⟨middle, run_front, run_back⟩
  · rw [made_back, made_front, merged]

def twoLabels : List UInt8 := "tiny\t2\t0\ta\tb".toUTF8.data.toList

/-- A body that leaves a parameter open. -/
def openEnded : List UInt8 :=
  ("c\tA\tX\n\tf\tI\tf\tsize\nc\tB\tY\r\n\tm\t()V\tm\trun\n"
    ++ "\t\tp\t1\t\tcount\n\t\t\tc\n").toUTF8.data.toList

/-- A body that declares one of those classes anew, with a method of it, and a class twice. -/
def redeclaring : List UInt8 :=
  ("c\tC\tW\nc\tB\tZ\n\tm\t()V\tm\tstop\n\t\tp\t0\tp\tq\n\t\tp\t1\t\t\n"
    ++ "c\tC\t\n").toUTF8.data.toList

/-- The classes keep their places, and what is declared anew takes the names of the second body. -/
theorem read_append_redeclaring
    : ∃ left right : Table 2,
        10 ∉ twoLabels ∧ Ended openEnded
        ∧ Format.nested.read 2 (withHeader twoLabels openEnded) = .ok left
        ∧ Format.nested.read 2 (withHeader twoLabels redeclaring) = .ok right
        ∧ Format.nested.read 2 (withHeader twoLabels (openEnded ++ redeclaring))
          = .ok (left.merge right)
        ∧ (left.merge right).classes.keys = [⟨"A"⟩, ⟨"B"⟩, ⟨"C"⟩]
        ∧ (left.merge right).names? (.cls ⟨"B"⟩) = some (.pair (some ⟨"B"⟩) (some ⟨"Z"⟩))
        ∧ ((left.merge right).parametersOf ⟨"B"⟩ ⟨⟨"m"⟩, ⟨"()V"⟩⟩).keys = [1, 0] := by
  have read_first : Format.nested.read 2 (withHeader twoLabels openEnded)
      = .ok ((Table.empty ⟨#v["a", "b"]⟩).declareAll
          [⟨.cls ⟨"A"⟩, .pair (some ⟨"A"⟩) (some ⟨"X"⟩)⟩,
            ⟨.field ⟨"A"⟩ ⟨⟨"f"⟩, some ⟨"I"⟩⟩, .pair (some ⟨"f"⟩) (some ⟨"size"⟩)⟩,
            ⟨.cls ⟨"B"⟩, .pair (some ⟨"B"⟩) (some ⟨"Y"⟩)⟩,
            ⟨.method ⟨"B"⟩ ⟨⟨"m"⟩, ⟨"()V"⟩⟩, .pair (some ⟨"m"⟩) (some ⟨"run"⟩)⟩,
            ⟨.parameter ⟨"B"⟩ ⟨⟨"m"⟩, ⟨"()V"⟩⟩ 1, .pair none (some ⟨"count"⟩)⟩]) := by
    decide +kernel
  have read_second : Format.nested.read 2 (withHeader twoLabels redeclaring)
      = .ok ((Table.empty ⟨#v["a", "b"]⟩).declareAll
          [⟨.cls ⟨"C"⟩, .pair (some ⟨"C"⟩) none⟩,
            ⟨.cls ⟨"B"⟩, .pair (some ⟨"B"⟩) (some ⟨"Z"⟩)⟩,
            ⟨.method ⟨"B"⟩ ⟨⟨"m"⟩, ⟨"()V"⟩⟩, .pair (some ⟨"m"⟩) (some ⟨"stop"⟩)⟩,
            ⟨.parameter ⟨"B"⟩ ⟨⟨"m"⟩, ⟨"()V"⟩⟩ 0, .pair (some ⟨"p"⟩) (some ⟨"q"⟩)⟩,
            ⟨.parameter ⟨"B"⟩ ⟨⟨"m"⟩, ⟨"()V"⟩⟩ 1, .pair none none⟩]) := by
    decide +kernel
  have one_line : 10 ∉ twoLabels := by decide +kernel
  have ended : Ended openEnded := by decide +kernel
  exact ⟨_, _, one_line, ended, read_first, read_second,
    read_append one_line ended read_first read_second, by decide, by decide, by decide⟩

end Nested

end NameTables
