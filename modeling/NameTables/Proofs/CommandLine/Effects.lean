import NameTables.Proofs.CommandLine.Runs

/-! What a run does to the files.
A run that fails leaves all files as they were. One that ends well puts the text of the table that
its command makes where the path of the output leads, and leaves all other files as they were. This
holds as well when the output replaces an input.
-/

namespace NameTables.CommandLine

open FileStore (WritesOnly)

/-- A command that fails changes nothing. -/
theorem Command.store_of_code_ne_zero {command : Command} {store : FileStore}
    (fails : (command.run store).code ≠ 0)
    : (command.run store).store = store := by
  unfold run finish at fails ⊢
  split
  · rfl
  · next made =>
    split
    · rfl
    · next written =>
      simp only [made, written] at fails
      exact absurd rfl fails

/-- Failing runs change no file. Runs that end well are those whose command makes a table that can
be written to its output, and they change no file but that one.
-/
theorem run_effects (arguments : List String) (store : FileStore)
    (no_help : parse arguments ≠ .error .help)
    : ((run arguments store).code ≠ 0 → (run arguments store).store = store)
      ∧ ((run arguments store).code = 0
        ↔ ∃ command table text,
            parse arguments = .ok command
            ∧ Makes store.read command table
            ∧ command.formats.output.write table = .ok text
            ∧ WritesOnly store (run arguments store).store command.output text.toUTF8) := by
  cases parsed : parse arguments with
  | error reason =>
      cases reason with
      | help => exact absurd parsed no_help
      | usage => simp [run, parsed]
  | ok command =>
      rw [run_of_parse parsed]
      refine ⟨Command.store_of_code_ne_zero, ?_⟩
      constructor
      · intro ends_well
        obtain ⟨table, text, made, writes, written⟩ := Command.run_succeeds_iff.mp ⟨ends_well, rfl⟩
        exact ⟨command, table, text, rfl, Command.table_eq_ok_iff.mp made, writes,
          FileStore.writesOnly_of_write written⟩
      · intro given
        rcases given with ⟨_, table, text, same, makes, writes, only⟩
        obtain rfl := Except.ok.inj same
        obtain ⟨after, written⟩ := only.exists_write
        exact (Command.run_succeeds_iff.mpr
          ⟨table, text, Command.table_eq_ok_iff.mpr makes, writes, written⟩).1

/-- Tables of two versions and a file that has nothing to do with them. -/
def versionsStore : FileStore where
  files :=
    ⟨[(⟨.above 0, ["old"]⟩,
          "tiny\t2\t0\tofficial\tinter\tnamed\nc\ta\tI1\tWorld\nc\tb\tI2\t\n".toUTF8),
        (⟨.above 0, ["maps", "new"]⟩,
          "tiny\t2\t0\tinter\tnamed\nc\tI1\tLevel\n".toUTF8),
        (⟨.above 0, ["maps", "notes"]⟩, "new names".toUTF8)], by decide⟩

/-- What the one class of the new version is called, under its name in the old one. -/
def joinedText : String := "tiny\t2\t0\tofficial\tnamed\nc\ta\tLevel\n"

def joinInPlace : List String :=
  ["join", "old", "maps/new", "maps/../maps/new", "--from", "official", "--to", "named",
    "--match", "inter"]

/-- The right input is replaced, and both other files stay. -/
theorem run_effects_inPlace
    : parse joinInPlace ≠ .error .help
      ∧ (run joinInPlace versionsStore).code = 0
      ∧ (run joinInPlace versionsStore).store.read "maps/new" = .ok joinedText.toUTF8
      ∧ (run joinInPlace versionsStore).store.read "maps/notes" = .ok "new names".toUTF8
      ∧ ∃ command table text,
          parse joinInPlace = .ok command
          ∧ Makes versionsStore.read command table
          ∧ command.formats.output.write table = .ok text
          ∧ WritesOnly versionsStore (run joinInPlace versionsStore).store command.output
              text.toUTF8 := by
  have no_help : parse joinInPlace ≠ .error .help := by decide +kernel
  have ends_well : (run joinInPlace versionsStore).code = 0 := by decide +kernel
  exact ⟨no_help, ends_well, by decide +kernel, by decide +kernel,
    (run_effects joinInPlace versionsStore no_help).2.mp ends_well⟩

end NameTables.CommandLine
