import NameTables.Proofs.Flat.Rereading
import NameTables.Proofs.Nested.Rereading
import NameTables.Proofs.Table.Origins

/-! Which tables survive being written and read again.
A target name or label loses a carriage return at its end to the line feed behind it. A class
without a name, which a line of a member can bring into a table, stands in a nested file that nobody
can read.
-/

namespace NameTables

namespace Table

/-- The table has the labels of another one, and gives every class, field and method the target name
that it has there.
-/
structure Retains (result table : Table 2) : Prop where
  labels : result.labels = table.labels
  target
    : ∀ {path : Path} {name : Name path.kind},
        path.kind ≠ .parameter → table.targetAt? path = some name
        → result.targetAt? path = some name

/-- No line end takes a part of a target along, and in a nested file no class without a name is
needed for one.
-/
structure Portable (table : Table 2) (format : Format) : Prop where
  label : ¬ Text.EndsInReturn (table.labels.texts.get 1)
  target
    : ∀ {path : Path} {name : Name path.kind},
        path.kind ≠ .parameter → table.targetAt? path = some name
        → ¬ Text.EndsInReturn name.text
  owner
    : format = .nested
      → ∀ {path : Path} {name : Name path.kind},
          path.kind ≠ .parameter → table.targetAt? path = some name → path.owner ≠ ⟨""⟩

variable {table : Table 2}

theorem Legible.target_ne (legible : table.Legible) {path : Path} {name : Name path.kind}
    (named : table.targetAt? path = some name)
    : name.text ≠ "" := by
  obtain ⟨names, found, target_eq⟩ := Option.bind_eq_some_iff.mp named
  refine legible.filled found ?_ 1 name target_eq
  rintro rfl
  rw [legible.unnamed found] at target_eq
  simp [Names.target, Names.keyed, Names.get] at target_eq

theorem Legible.label_get (legible : table.Legible) (i : Fin 2)
    : table.labels.texts.get i ≠ "" ∧ Text.IsCell (table.labels.texts.get i) :=
  legible.label _ (Vector.mem_toList_iff.mpr (Vector.getElem_mem i.isLt))

theorem targetAt?_declareAll_trimReturn (labels : Labels 2) {declarations : List (Declaration 2)}
    {path : Path} {names : Names 2 path.kind} (last : lastDeclared? declarations path = some names)
    : ((Table.empty labels).declareAll (declarations.map Declaration.trimReturn)).targetAt? path
      = names.target.bind Name.trimReturn? := by
  have last_trimmed : lastDeclared? (declarations.map Declaration.trimReturn) path
      = some names.trimReturn := by
    rw [lastDeclared?_map_trimReturn, last]
    rfl
  have reached : ∃ declaration ∈ declarations.map Declaration.trimReturn,
      declaration.path.Reaches path :=
    ⟨_, mem_of_lastDeclared? last_trimmed, Path.reaches_self path⟩
  rw [targetAt?, names?_declareAll_eq_ite, if_pos reached, last_trimmed]
  exact Names.target_setTarget _ _

/-- What was declared for every target is retained if none ends in a carriage return. -/
theorem retains_trimmed_iff (legible : table.Legible) {declarations : List (Declaration 2)}
    (declared
      : ∀ {path : Path} {name : Name path.kind},
          path.kind ≠ .parameter → table.targetAt? path = some name
          → ∃ names, lastDeclared? declarations path = some names ∧ names.target = some name)
    : ((Table.empty
          ⟨#v[table.labels.texts.get 0, Text.trimReturn (table.labels.texts.get 1)]⟩).declareAll
          (declarations.map Declaration.trimReturn)).Retains table
      ↔ ¬ Text.EndsInReturn (table.labels.texts.get 1)
        ∧ ∀ {path : Path} {name : Name path.kind},
            path.kind ≠ .parameter → table.targetAt? path = some name
            → ¬ Text.EndsInReturn name.text := by
  have labels_iff (target : String)
      : Labels.mk #v[table.labels.texts.get 0, target] = table.labels
        ↔ target = table.labels.texts.get 1 := by
    constructor
    · intro same
      exact congrArg (fun labels => labels.texts.get 1) same
    · rintro rfl
      obtain ⟨texts⟩ := table.labels
      congr 1
      ext i lt
      match i with
      | 0 => rfl
      | 1 => rfl
  constructor
  · intro retains
    have labels_eq := retains.labels
    rw [labels_declareAll, labels_iff, Text.trimReturn_eq_self_iff] at labels_eq
    refine ⟨labels_eq, fun no_parameter named => ?_⟩
    obtain ⟨names, last, target_eq⟩ := declared no_parameter named
    have kept := retains.target no_parameter named
    rw [targetAt?_declareAll_trimReturn _ last, target_eq, Option.bind_some,
      Name.trimReturn?_eq_self_iff (legible.target_ne named)] at kept
    exact kept
  · intro given
    rcases given with ⟨label, targets⟩
    constructor
    · rw [labels_declareAll, labels_iff, Text.trimReturn_eq_self_iff]
      exact label
    · intro path name no_parameter named
      obtain ⟨names, last, target_eq⟩ := declared no_parameter named
      rw [targetAt?_declareAll_trimReturn _ last, target_eq, Option.bind_some,
        Name.trimReturn?_eq_self_iff (legible.target_ne named)]
      exact targets no_parameter named

end Table

theorem Flat.exists_lastDeclared?_written {table : Table 2} (coherent : table.Coherent)
    (arrangement : Arrangement) {path : Path} {name : Name path.kind}
    (no_parameter : path.kind ≠ .parameter) (named : table.targetAt? path = some name)
    : ∃ names, lastDeclared? (written table arrangement) path = some names
        ∧ names.target = some name := by
  obtain ⟨names, found, target_eq⟩ := Option.bind_eq_some_iff.mp named
  have kept : Kept table ⟨path, names⟩ :=
    ⟨no_parameter, found, Option.isSome_iff_exists.mpr ⟨name, target_eq⟩⟩
  exact ⟨names, (lastDeclared?_written_eq_some_iff coherent).mpr kept, target_eq⟩

/-- An entry with a target name is written with that one. -/
theorem Nested.target_writtenNames {table : Table 2} {path : Path} {name : Name path.kind}
    (named : table.targetAt? path = some name)
    : (table.writtenNames path).target = some name := by
  cases path with
  | cls owner =>
      have target_eq : table.target? owner = some name := by
        obtain ⟨names, found, target_eq⟩ := Option.bind_eq_some_iff.mp named
        obtain ⟨cls, stored, rfl⟩ := Option.map_eq_some_iff.mp found
        exact Option.bind_eq_some_iff.mpr ⟨cls, stored, target_eq⟩
      rw [Table.writtenNames, Names.target_pair, Table.fullTarget, target_eq]
  | field owner key => exact named
  | method owner key =>
      rw [Table.writtenNames, Names.target_pair, named]
      rfl
  | parameter owner key index => exact named

theorem Nested.exists_lastDeclared?_written {table : Table 2} (coherent : table.Coherent)
    (arrangement : Arrangement) {path : Path} {name : Name path.kind}
    (named : table.targetAt? path = some name)
    : ∃ names, lastDeclared? ((paths table arrangement).map table.written) path = some names
        ∧ names.target = some name := by
  obtain ⟨names, found, target_eq⟩ := Option.bind_eq_some_iff.mp named
  have kept := kept_of_target found (Option.isSome_iff_exists.mpr ⟨name, target_eq⟩)
  have nodup : (((paths table arrangement).map table.written).map Declaration.path).Nodup := by
    rw [map_path_written]
    exact nodup_paths coherent
  refine ⟨table.writtenNames path, (lastDeclared?_eq_some_iff nodup).mpr ?_,
    target_writtenNames named⟩
  exact List.mem_map_of_mem ((mem_paths_iff coherent).mpr kept)

namespace Format

/-- What was read and written can be read again, with the same labels and target names, exactly if
the table is portable in the format that it was written in.
-/
theorem reread_retains_iff_portable {input output : Format} {content : ByteArray}
    {table : Table 2} {text : String} (accepted : input.read 2 content = .ok table)
    (writes : output.write table = .ok text)
    : (∃ result, output.read 2 text.toUTF8 = .ok result ∧ result.Retains table)
      ↔ table.Portable output := by
  have coherent := Format.read_coherent accepted
  have legible := Format.read_legible accepted
  have written : output.writeWith table (table.labels.texts.get 0) (table.labels.texts.get 1)
      .byName = .ok text := writes
  obtain ⟨source_ne, source_cell⟩ := legible.label_get 0
  obtain ⟨target_ne, target_cell⟩ := legible.label_get 1
  have kept_label (label : ¬ Text.EndsInReturn (table.labels.texts.get 1))
      : Text.trimReturn (table.labels.texts.get 1) ≠ "" := by
    rw [Text.trimReturn_eq_self_iff.mpr label]
    exact target_ne
  cases output with
  | flat =>
      obtain ⟨checked, rfl⟩ := Flat.writeWith_eq_ok_iff.mp written
      have retains_iff := Table.retains_trimmed_iff legible
        (Flat.exists_lastDeclared?_written coherent .byName)
      rw [← Flat.trimmed] at retains_iff
      simp only [Flat.read_written_eq_ok_iff coherent legible checked source_cell target_cell
        .byName source_ne]
      constructor
      · intro given
        rcases given with ⟨_, ⟨_, rfl⟩, retains⟩
        obtain ⟨label, target⟩ := retains_iff.mp retains
        exact ⟨label, target, by simp⟩
      · intro portable
        exact ⟨_, ⟨kept_label portable.label, rfl⟩,
          retains_iff.mpr ⟨portable.label, portable.target⟩⟩
  | nested =>
      obtain ⟨checked, rfl⟩ := Nested.writeWith_eq_ok_iff.mp written
      have retains_iff := Table.retains_trimmed_iff legible fun _ named =>
        Nested.exists_lastDeclared?_written coherent .byName named
      rw [← Nested.trimmed] at retains_iff
      have unnamed_iff := Nested.kept_unnamed_iff legible
      simp only [Nested.read_written_eq_ok_iff coherent legible checked source_cell target_cell
        .byName source_ne]
      constructor
      · intro given
        rcases given with ⟨_, ⟨⟨_, named⟩, rfl⟩, retains⟩
        obtain ⟨label, target⟩ := retains_iff.mp retains
        refine ⟨label, target, fun _ path name no_parameter target_eq unnamed => ?_⟩
        exact named (unnamed_iff.mpr ⟨path, name, no_parameter, target_eq, unnamed⟩)
      · intro portable
        refine ⟨_, ⟨⟨kept_label portable.label, fun unnamed => ?_⟩, rfl⟩,
          retains_iff.mpr ⟨portable.label, portable.target⟩⟩
        obtain ⟨path, name, no_parameter, target_eq, same⟩ := unnamed_iff.mp unnamed
        exact portable.owner rfl no_parameter target_eq same

/-- A flat file with a field of a class without a name. -/
def unnamedOwner : ByteArray := "v1\tofficial\tnamed\nFIELD\t\tI\tb\tcount\n".toUTF8

/-- The table of the field comes back from a flat file. -/
theorem reread_retains_unnamedOwner
    : ∃ table text, flat.read 2 unnamedOwner = .ok table ∧ flat.write table = .ok text
        ∧ text = "v1\tofficial\tnamed\nFIELD\t\tI\tb\tcount\n"
        ∧ ∃ result, flat.read 2 text.toUTF8 = .ok result ∧ result.Retains table := by
  have accepted : flat.read 2 unnamedOwner
      = .ok ((Table.empty ⟨#v["official", "named"]⟩).declareAll
          [⟨.field ⟨""⟩ ⟨⟨"b"⟩, some ⟨"I"⟩⟩, .pair (some ⟨"b"⟩) (some ⟨"count"⟩)⟩]) := by
    decide +kernel
  have writes : flat.write ((Table.empty ⟨#v["official", "named"]⟩).declareAll
          [⟨.field ⟨""⟩ ⟨⟨"b"⟩, some ⟨"I"⟩⟩, .pair (some ⟨"b"⟩) (some ⟨"count"⟩)⟩])
      = .ok "v1\tofficial\tnamed\nFIELD\t\tI\tb\tcount\n" := by
    decide +kernel
  refine ⟨_, _, accepted, writes, rfl, (reread_retains_iff_portable accepted writes).mpr ?_⟩
  refine ⟨by decide, fun _ named => ?_, by simp⟩
  obtain ⟨names, found, target_eq⟩ := Option.bind_eq_some_iff.mp named
  rcases Table.mem_or_above_of_names? found with listed | ⟨rfl, _⟩
  · obtain ⟨rfl, same⟩ := Declaration.mk.inj (List.mem_singleton.mp listed)
    obtain rfl := eq_of_heq same
    obtain rfl := Option.some.inj target_eq
    decide
  · rw [Table.target_freshNames] at target_eq
    cases target_eq

/-- In a nested file the class has to stand above the field, and its line is refused. -/
theorem not_reread_unnamedOwner
    : ∃ table text, flat.read 2 unnamedOwner = .ok table ∧ nested.write table = .ok text
        ∧ text = "tiny\t2\t0\tofficial\tnamed\nc\t\t\n\tf\tI\tb\tcount\n"
        ∧ nested.read 2 text.toUTF8
            = .error ⟨[.readingLines, .inLine 2], .malformed 2 .noFirstName⟩ := by
  refine ⟨(Table.empty ⟨#v["official", "named"]⟩).declareAll
    [⟨.field ⟨""⟩ ⟨⟨"b"⟩, some ⟨"I"⟩⟩, .pair (some ⟨"b"⟩) (some ⟨"count"⟩)⟩], _, ?_, ?_, rfl, ?_⟩
  · decide +kernel
  · decide +kernel
  · decide +kernel

/-- A target name loses the carriage return that a second one in the file brought into it. -/
example
    : ∃ (table : Table 2) (text : String) (result : Table 2),
        nested.read 2 "tiny\t2\t0\tx\ty\nc\ta\tA\r\r\n".toUTF8 = .ok table
        ∧ nested.write table = .ok text ∧ nested.read 2 text.toUTF8 = .ok result
        ∧ table.targetAt? (.cls ⟨"a"⟩) = some ⟨"A\r"⟩
        ∧ result.targetAt? (.cls ⟨"a"⟩) = some ⟨"A"⟩ := by
  refine ⟨(Table.empty ⟨#v["x", "y"]⟩).declareAll
    [⟨.cls ⟨"a"⟩, .pair (some ⟨"a"⟩) (some ⟨"A\r"⟩)⟩],
    "tiny\t2\t0\tx\ty\nc\ta\tA\r\n", (Table.empty ⟨#v["x", "y"]⟩).declareAll
    [⟨.cls ⟨"a"⟩, .pair (some ⟨"a"⟩) (some ⟨"A"⟩)⟩], ?_, ?_, ?_, ?_, ?_⟩ <;> decide +kernel

end Format

end NameTables
