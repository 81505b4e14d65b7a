import NameTables.CommandLine.Run
import NameTables.Proofs.FileStore
import NameTables.Proofs.Format.Headers

/-! What commands make, and when runs end well.
An input holds a table if it can be read with the number of namespaces that its header has. A
command projects, joins or migrates what its inputs hold, and a run ends well if the table can be
written to the output.
-/

namespace NameTables.CommandLine

variable {reader : Reader} {format : Format} {path : String} {store after : FileStore}

-----------------------------------------------------------------------------------------
-- Inputs
-----------------------------------------------------------------------------------------

theorem fromUTF8?_toUTF8 (text : String) : String.fromUTF8? text.toUTF8 = some text :=
  dif_pos text.isValidUTF8

theorem toUTF8_of_fromUTF8? {content : ByteArray} {text : String}
    (decoded : String.fromUTF8? content = some text)
    : text.toUTF8 = content := by
  simp only [String.fromUTF8?, Option.dite_none_right_eq_some, Option.some.injEq] at decoded
  obtain ⟨valid, rfl⟩ := decoded
  simp [String.fromUTF8]

theorem Input.load_eq_ok_iff {input : Input}
    : Input.load reader format path = .ok input
      ↔ ∃ content text count,
          reader path = .ok content
          ∧ String.fromUTF8? content = some text
          ∧ format.countLabels (Text.firstLine text) = .ok count
          ∧ input = ⟨path, format, content, count⟩ := by
  unfold Input.load
  dsimp only
  split
  · next loaded => simp [loaded]
  · next content loaded =>
    split
    · next undecodable => simp [loaded, undecodable]
    · next text decoded =>
      simp only [Outcome.bind_eq_ok_iff, Outcome.within_eq_ok_iff]
      constructor
      · intro given
        rcases given with ⟨count, counted, same⟩
        exact ⟨content, text, count, loaded, decoded, counted, (Except.ok.inj same).symm⟩
      · intro given
        rcases given with ⟨content', text', count, loaded', decoded', counted, rfl⟩
        obtain rfl := Except.ok.inj (loaded.symm.trans loaded')
        obtain rfl := Option.some.inj (decoded.symm.trans decoded')
        exact ⟨count, counted, rfl⟩

theorem Input.checkCount_eq_ok_iff {input : Input} {two : PLift (2 ≤ input.count)}
    : input.checkCount = .ok two ↔ input.count ≤ 5 := by
  by_cases supported : 2 ≤ input.count ∧ input.count ≤ 5
  · rw [checkCount, dif_pos supported]
    exact ⟨fun _ => supported.2, fun _ => rfl⟩
  · rw [checkCount, dif_neg supported]
    constructor
    · intro refused
      cases refused
    · intro few
      exact absurd ⟨two.down, few⟩ supported

/-- (Holds reader format path table) says that the file at a path can be read as a table with as
many namespaces as its header has, which is a number that is supported.
-/
def Holds (reader : Reader) (format : Format) (path : String) {n : Nat} (table : Table n) : Prop :=
  ∃ content text,
    reader path = .ok content
    ∧ String.fromUTF8? content = some text
    ∧ format.countLabels (Text.firstLine text) = .ok n
    ∧ 2 ≤ n ∧ n ≤ 5
    ∧ format.read n content = .ok table

theorem Input.holds_of_ok {input : Input} {two : PLift (2 ≤ input.count)}
    {table : Table input.count} (loaded : Input.load reader format path = .ok input)
    (checked : input.checkCount = .ok two) (made : input.table = .ok table)
    : Holds reader format path table := by
  obtain ⟨content, text, count, here, decoded, counted, rfl⟩ := load_eq_ok_iff.mp loaded
  exact ⟨content, text, here, decoded, counted, two.down, checkCount_eq_ok_iff.mp checked,
    Outcome.within_eq_ok_iff.mp made⟩

theorem Holds.exists_input {n : Nat} {table : Table n} (holds : Holds reader format path table)
    : ∃ content,
        Input.load reader format path = .ok ⟨path, format, content, n⟩
        ∧ (∃ two, (Input.mk path format content n).checkCount = .ok ⟨two⟩)
        ∧ (Input.mk path format content n).table = .ok table := by
  obtain ⟨content, text, here, decoded, counted, two, supported, tabled⟩ := holds
  exact ⟨content, Input.load_eq_ok_iff.mpr ⟨content, text, n, here, decoded, counted, rfl⟩,
    ⟨two, Input.checkCount_eq_ok_iff.mpr supported⟩, Outcome.within_eq_ok_iff.mpr tabled⟩

/-- The labels that are counted in the first line are the namespaces of any table that the file can
be read as, but a header is not counted behind a tab or, in the flat format, behind an empty line.
So a command reads its inputs with the only number that fits, if there is one.
-/
theorem Input.count_agrees_read (format : Format)
    : (∀ (text : String) {n : Nat} {table : Table n}, format.read n text.toUTF8 = .ok table →
        (format.HidesHeader (Text.firstLine text) →
            ∃ failure, format.countLabels (Text.firstLine text) = .error failure)
          ∧ (¬format.HidesHeader (Text.firstLine text) →
            format.countLabels (Text.firstLine text) = .ok n))
      ∧ (∀ (text : String) {count : Nat}, format.countLabels (Text.firstLine text) = .ok count →
          ∀ n ≠ count, ∃ failure, format.read n text.toUTF8 = .error failure)
      ∧ ∀ {reader : Reader} {path : String} {input : Input},
          load reader format path = .ok input →
          ∀ n ≠ input.count, ∃ failure, format.read n input.content = .error failure := by
  refine ⟨?_, fun _ _ counted _ other => Format.read_fails_of_countLabels counted other, ?_⟩
  · intro text n table accepts
    exact ⟨fun hides => hides.countLabels_fails, Format.countLabels_of_read accepts⟩
  · intro reader path input loaded n other
    obtain ⟨content, text, count, _, decoded, counted, rfl⟩ := load_eq_ok_iff.mp loaded
    obtain rfl := toUTF8_of_fromUTF8? decoded
    exact Format.read_fails_of_countLabels counted other

/-- A header that ends in carriage returns, of which the second label keeps one. -/
def returnedText : String := "tiny\t2\t0\tobf\tnamed\r\r\nc\ta\tA\r\n"

def returnedReader : Reader := fun _ => .ok returnedText.toUTF8

theorem Input.count_agrees_read_returned
    : (∃ table, Format.nested.read 2 returnedText.toUTF8 = .ok table
        ∧ table.labels.toList = ["obf", "named\r"])
      ∧ Format.nested.countLabels (Text.firstLine returnedText) = .ok 2
      ∧ (∃ failure, Format.nested.read 3 returnedText.toUTF8 = .error failure)
      ∧ load returnedReader .nested "in" = .ok ⟨"in", .nested, returnedText.toUTF8, 2⟩
      ∧ (∃ failure, Format.nested.read 4 returnedText.toUTF8 = .error failure)
      ∧ ∃ failure,
          Format.flat.countLabels (Text.firstLine "\nv1\tnear\tfar\n") = .error failure := by
  have accepts : Format.nested.read 2 returnedText.toUTF8
      = .ok ((Table.empty ⟨#v["obf", "named\r"]⟩).declareAll
          [⟨.cls ⟨"a"⟩, .pair (some ⟨"a"⟩) (some ⟨"A"⟩)⟩]) := by
    decide +kernel
  obtain ⟨agrees, fails, only⟩ := count_agrees_read .nested
  have counted := (agrees returnedText accepts).2 (by decide +kernel)
  have loaded : load returnedReader .nested "in"
      = .ok ⟨"in", .nested, returnedText.toUTF8, 2⟩ :=
    load_eq_ok_iff.mpr ⟨_, returnedText, 2, rfl, fromUTF8?_toUTF8 _, counted, rfl⟩
  have accepts_behind : Format.flat.read 2 "\nv1\tnear\tfar\n".toUTF8
      = .ok (Table.empty ⟨#v["near", "far"]⟩) := by
    decide +kernel
  have hidden := ((count_agrees_read .flat).1 _ accepts_behind).1 (by decide +kernel)
  exact ⟨⟨_, accepts, by decide⟩, counted, fails returnedText counted 3 (by decide), loaded,
    only loaded 4 (by decide), hidden⟩

-----------------------------------------------------------------------------------------
-- Tables of the commands
-----------------------------------------------------------------------------------------

/-- A table is converted if its file holds it, and if it can be projected. -/
theorem convertedTable_eq_ok_iff {source target : Option String} {result : Table 2}
    : (convertedTable reader format path source target).outcome = .ok result
      ↔ ∃ (n : Nat) (two : 2 ≤ n) (table : Table n),
          Holds reader format path table
          ∧ let labels := convertLabels two table source target
            table.project labels.1 labels.2 = .ok result := by
  unfold convertedTable
  dsimp only
  constructor
  · intro done
    split at done
    · cases done
    · next read =>
      obtain ⟨input, loaded, read⟩ := Outcome.bind_eq_ok_iff.mp read
      obtain ⟨⟨two⟩, checked, read⟩ := Outcome.bind_eq_ok_iff.mp read
      obtain ⟨table, made, read⟩ := Outcome.bind_eq_ok_iff.mp read
      have holds := Input.holds_of_ok loaded checked made
      cases read
      exact ⟨_, two, table, holds, done⟩
  · intro given
    rcases given with ⟨n, two, table, holds, projected⟩
    obtain ⟨content, loaded, ⟨_, checked⟩, made⟩ := holds.exists_input
    dsimp only [Bind.bind, Except.bind, pure, Except.pure]
    rw [loaded]
    dsimp only
    rw [checked]
    dsimp only
    rw [made]
    exact projected

/-- Two tables are combined if their files hold them. -/
theorem combinedTable_eq_ok_iff {left right : String}
    {combine : {m n : Nat} → Table m → Table n → Outcome (Table 2)} {result : Table 2}
    : combinedTable reader format left right combine = .ok result
      ↔ ∃ (m n : Nat) (a : Table m) (b : Table n),
          Holds reader format left a ∧ Holds reader format right b ∧ combine a b = .ok result := by
  unfold combinedTable
  simp only [Outcome.bind_eq_ok_iff]
  constructor
  · intro given
    rcases given with ⟨first, loaded, second, loaded', _, checked, _, checked', a, made, b, made',
      combined⟩
    exact ⟨_, _, a, b, Input.holds_of_ok loaded checked made,
      Input.holds_of_ok loaded' checked' made', combined⟩
  · intro given
    rcases given with ⟨m, n, a, b, holds, holds', combined⟩
    obtain ⟨content, loaded, ⟨_, checked⟩, made⟩ := holds.exists_input
    obtain ⟨content', loaded', ⟨_, checked'⟩, made'⟩ := holds'.exists_input
    exact ⟨_, loaded, _, loaded', _, checked, _, checked', a, made, b, made', combined⟩

/-- (Makes reader command table) says what table a command makes of its inputs. -/
inductive Makes (reader : Reader) : Command → Table 2 → Prop
  | convert {input output formats source target} {n : Nat} {table : Table n} {result}
    (two : 2 ≤ n) (holds : Holds reader formats.input input table)
    (projected
      : table.project (convertLabels two table source target).1
          (convertLabels two table source target).2
        = .ok result)
    : Makes reader (.convert input output formats source target) result
  | join {left right output formats source target matching labels} {m n : Nat} {a : Table m}
    {b : Table n} {result} (labelled : joinLabels source target matching = .ok labels)
    (left_holds : Holds reader formats.input left a)
    (right_holds : Holds reader formats.input right b) (joined : a.join b labels = .ok result)
    : Makes reader (.join left right output formats source target matching) result
  | migrate {old new output formats matching named oldLabel newLabel} {m n : Nat} {a : Table m}
    {b : Table n} {result} (old_holds : Holds reader formats.input old a)
    (new_holds : Holds reader formats.input new b)
    (migrated : a.migrate b matching named oldLabel newLabel = .ok result)
    : Makes reader (.migrate old new output formats matching named oldLabel newLabel) result

theorem Command.table_eq_ok_iff {command : Command} {result : Table 2}
    : (command.table reader).outcome = .ok result ↔ Makes reader command result := by
  cases command with
  | convert input output formats source target =>
      rw [table, convertedTable_eq_ok_iff]
      constructor
      · intro given
        rcases given with ⟨n, two, table, holds, projected⟩
        exact .convert two holds projected
      · intro makes
        cases makes with
        | convert two holds projected => exact ⟨_, two, _, holds, projected⟩
  | join left right output formats source target matching =>
      simp only [table, Outcome.bind_eq_ok_iff, combinedTable_eq_ok_iff]
      constructor
      · intro given
        rcases given with ⟨labels, labelled, m, n, a, b, holds, holds', joined⟩
        exact .join labelled holds holds' joined
      · intro makes
        cases makes with
        | join labelled holds holds' joined =>
            exact ⟨_, labelled, _, _, _, _, holds, holds', joined⟩
  | migrate old new output formats matching named oldLabel newLabel =>
      simp only [table, combinedTable_eq_ok_iff]
      constructor
      · intro given
        rcases given with ⟨m, n, a, b, holds, holds', migrated⟩
        exact .migrate holds holds' migrated
      · intro makes
        cases makes with
        | migrate holds holds' migrated => exact ⟨_, _, _, _, holds, holds', migrated⟩

-----------------------------------------------------------------------------------------
-- Runs
-----------------------------------------------------------------------------------------

theorem Command.product_eq_ok_iff {command : Command} {text done : String}
    : (command.product reader).outcome = .ok (text, done)
      ↔ ∃ table,
          (command.table reader).outcome = .ok table
          ∧ command.formats.output.write table = .ok text
          ∧ done = wroteMessage table.classes.size command.output := by
  unfold product
  simp only [Outcome.bind_eq_ok_iff, Outcome.within_eq_ok_iff]
  constructor
  · intro given
    rcases given with ⟨table, made, _, writes, same⟩
    obtain ⟨rfl, rfl⟩ := Prod.mk.inj (Except.ok.inj same)
    exact ⟨table, made, writes, rfl⟩
  · intro given
    rcases given with ⟨table, made, writes, rfl⟩
    exact ⟨table, made, text, writes, rfl⟩

theorem run_of_parse {arguments : List String} {command : Command}
    (parsed : parse arguments = .ok command)
    : run arguments store = command.run store := by
  rw [run, parsed]

/-- A run ends well when it writes what the command makes. -/
theorem Command.run_succeeds_iff {command : Command}
    : (command.run store).code = 0 ∧ (command.run store).store = after
      ↔ ∃ table text,
          (command.table store.read).outcome = .ok table
          ∧ command.formats.output.write table = .ok text
          ∧ store.write command.output text.toUTF8 = .ok after := by
  unfold run finish
  constructor
  · intro given
    rcases given with ⟨code, stored⟩
    split at code
    · cases code
    · next text done produced =>
      obtain ⟨table, made, writes, _⟩ := product_eq_ok_iff.mp produced
      split at code
      · cases code
      · next written =>
        simp only [produced, written] at stored
        exact ⟨table, text, made, writes, stored ▸ written⟩
  · intro given
    rcases given with ⟨table, text, made, writes, written⟩
    have produced := product_eq_ok_iff.mpr ⟨table, made, writes, rfl⟩
    simp only [produced, written, and_self]

end NameTables.CommandLine
