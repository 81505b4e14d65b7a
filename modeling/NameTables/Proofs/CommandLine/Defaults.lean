import NameTables.Proofs.CommandLine.Runs
import NameTables.Proofs.Projection.First
import NameTables.Proofs.Table.Origins

/-! Converting without a word on the namespaces.
The first two labels of the input then stand in for the namespaces, which are found by these labels
again. A label leads to the first namespace that has it, so the second namespace is not found when
it is labelled like the first one.
-/

namespace NameTables.CommandLine

/-- The table that a run without labels makes and writes has the names in the first two namespaces,
exactly if their labels differ or no entry is called differently in them.
-/
theorem run_convert_defaults {arguments : List String} {store : FileStore} {input output : String}
    {formats : Formats} (parsed : parse arguments = .ok (.convert input output formats none none))
    (ends_well : (run arguments store).code = 0)
    : ∃ (n : Nat) (two : 2 ≤ n) (table : Table n) (result : Table 2) (text : String),
        Holds store.read formats.input input table
        ∧ Makes store.read (.convert input output formats none none) result
        ∧ formats.output.write result = .ok text
        ∧ (run arguments store).store.read output = .ok text.toUTF8
        ∧ table.Coherent
        ∧ table.keeping (.castLE two 0) (.castLE two 1)
          = table.projection
              ⟨#v[table.labels.texts.get (.castLE two 0), table.labels.texts.get (.castLE two 1)]⟩
              (.castLE two 0) (.castLE two 1)
        ∧ (result = table.keeping (.castLE two 0) (.castLE two 1)
          ↔ table.labels.texts.get (.castLE two 0) ≠ table.labels.texts.get (.castLE two 1)
            ∨ ∀ kind, ∀ names ∈ table.namesOf kind,
                names.get (.castLE two 0) = names.get (.castLE two 1)) := by
  rw [run_of_parse parsed] at ends_well ⊢
  obtain ⟨result, text, converted, writes, written⟩ := Command.run_succeeds_iff.mp ⟨ends_well, rfl⟩
  obtain ⟨n, two, table, holds, projected⟩ := convertedTable_eq_ok_iff.mp converted
  have coherent : table.Coherent := by
    obtain ⟨_, _, _, _, _, _, _, read⟩ := holds
    exact Format.read_coherent read
  exact ⟨n, two, table, result, text, holds, .convert two holds projected, writes,
    FileStore.read_write written, coherent, coherent.keeping_eq_projection two,
    coherent.eq_keeping_iff two projected⟩

/-- A table with three namespaces, where a field has no name in the second one, and so is not
written.
-/
def threefoldStore : FileStore where
  files :=
    ⟨[(⟨.above 0, ["in"]⟩,
        "v1\tx\ty\tz\nCLASS\ta\tB\tC\nFIELD\ta\tI\tf\t\tg\n".toUTF8)], by decide⟩

def threefold : Exit := run ["convert", "in", "out", "--input-format", "v1"] threefoldStore

theorem run_convert_defaults_threefold
    : threefold.code = 0
      ∧ threefold.store.read "out" = .ok "tiny\t2\t0\tx\ty\nc\ta\tB\n".toUTF8
      ∧ ∃ (n : Nat) (two : 2 ≤ n) (table : Table n) (result : Table 2) (text : String),
          Holds threefoldStore.read .flat "in" table
          ∧ Makes threefoldStore.read (.convert "in" "out" ⟨.flat, .nested⟩ none none) result
          ∧ Format.nested.write result = .ok text
          ∧ threefold.store.read "out" = .ok text.toUTF8
          ∧ (result = table.keeping (.castLE two 0) (.castLE two 1)
            ↔ table.labels.texts.get (.castLE two 0) ≠ table.labels.texts.get (.castLE two 1)
              ∨ ∀ kind, ∀ names ∈ table.namesOf kind,
                  names.get (.castLE two 0) = names.get (.castLE two 1)) := by
  have parsed : parse ["convert", "in", "out", "--input-format", "v1"]
      = .ok (.convert "in" "out" ⟨.flat, .nested⟩ none none) := by decide +kernel
  have ends_well : threefold.code = 0 := by decide +kernel
  obtain ⟨n, two, table, result, text, holds, makes, writes, reread, _, _, exactly⟩ :=
    run_convert_defaults parsed ends_well
  exact ⟨ends_well, by decide +kernel, n, two, table, result, text, holds, makes, writes, reread,
    exactly⟩

/-- Both namespaces have one label, and the class is called differently in them. -/
def sameLabelText : String := "tiny\t2\t0\ta\ta\nc\tx\tY\n"

def sameLabelStore : FileStore := ⟨⟨[(⟨.above 0, ["in"]⟩, sameLabelText.toUTF8)], by decide⟩⟩

def sameLabel : Exit := run ["convert", "in", "out"] sameLabelStore

/-- The name in the second namespace is lost, although the run ends well. -/
theorem not_run_convert_defaults_sameLabel
    : parse ["convert", "in", "out"] = .ok (.convert "in" "out" ⟨.nested, .nested⟩ none none)
      ∧ sameLabel.code = 0
      ∧ sameLabel.store.read "out" = .ok "tiny\t2\t0\ta\ta\nc\tx\tx\n".toUTF8
      ∧ ¬∃ (n : Nat) (two : 2 ≤ n) (table : Table n) (text : String),
          Holds sameLabelStore.read .nested "in" table
          ∧ Format.nested.write (table.keeping (.castLE two 0) (.castLE two 1)) = .ok text
          ∧ sameLabel.store.read "out" = .ok text.toUTF8 := by
  have written : sameLabel.store.read "out" = .ok "tiny\t2\t0\ta\ta\nc\tx\tx\n".toUTF8 := by
    decide +kernel
  refine ⟨by decide +kernel, by decide +kernel, written, ?_⟩
  intro given
  rcases given with ⟨n, two, table, text, ⟨content, text', here, decoded, counted, _, _, read⟩,
    writes, reread⟩
  have stored : sameLabelStore.read "in" = .ok sameLabelText.toUTF8 := by decide +kernel
  obtain rfl := Except.ok.inj (stored.symm.trans here)
  obtain rfl := Option.some.inj ((fromUTF8?_toUTF8 sameLabelText).symm.trans decoded)
  have two_labels : Format.nested.countLabels (Text.firstLine sameLabelText) = .ok 2 := by
    decide +kernel
  obtain rfl := Except.ok.inj (two_labels.symm.trans counted)
  have kept : (Format.nested.read 2 sameLabelText.toUTF8).map (fun table =>
      Format.nested.write (table.keeping 0 1)) = .ok (.ok sameLabelText) := by
    decide +kernel
  rw [read] at kept
  obtain rfl := Except.ok.inj (writes.symm.trans (Except.ok.inj kept))
  have lost : "tiny\t2\t0\ta\ta\nc\tx\tx\n".toUTF8 ≠ sameLabelText.toUTF8 := by decide +kernel
  exact lost (Except.ok.inj (written.symm.trans reread))

end NameTables.CommandLine
