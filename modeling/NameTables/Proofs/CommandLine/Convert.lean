import NameTables.Proofs.CommandLine.Runs
import NameTables.Proofs.Nested.Projected

/-! Converting once more what was converted.
A run that ends well leaves the text of a table in its output. If that table is a projection, the
file is read again as a table with two namespaces, projected to itself, and written as it was.
-/

namespace NameTables.CommandLine

variable {reader : Reader} {store : FileStore}

/-- The text of what was converted is read by any reader as what is converted to itself. -/
theorem convertedTable_again {source target input output : String} {result : Table 2}
    {content : ByteArray} {text : String} {reader' : Reader} (stored : reader input = .ok content)
    (no_return : (13 : UInt8) ∉ content.data.toList) (different : source ≠ target)
    (converted
      : (convertedTable reader .nested input (some source) (some target)).outcome = .ok result)
    (writes : Format.nested.write result = .ok text)
    (reread : reader' output = .ok text.toUTF8)
    : ∃ again,
        (convertedTable reader' .nested output none none).outcome = .ok again
        ∧ Format.nested.write again = .ok text := by
  obtain ⟨n, _, table, ⟨_, _, same, _, _, _, _, read⟩, projected⟩ :=
    convertedTable_eq_ok_iff.mp converted
  obtain rfl := Except.ok.inj (stored.symm.trans same)
  obtain ⟨plain, words⟩ := Nested.read_plain read no_return
  obtain ⟨counted, again, read_again, labels, projected_again, writes_again⟩ :=
    Nested.exists_of_write_projection (Format.read_coherent read) plain words different projected
      writes
  have holds : Holds reader' .nested output again :=
    ⟨_, text, reread, fromUTF8?_toUTF8 text, counted, by decide, by decide, read_again⟩
  refine ⟨again, convertedTable_eq_ok_iff.mpr ⟨2, by decide, again, holds, ?_⟩, writes_again⟩
  simp only [convertLabels, labels]
  exact projected_again

/-- A file without carriage returns is converted to one that is converted to itself, wherever this
is written to.
-/
theorem run_convert_again {arguments again : List String} {input output copy source target : String}
    {content : ByteArray}
    (parsed
      : parse arguments
        = .ok (.convert input output ⟨.nested, .nested⟩ (some source) (some target)))
    (different : source ≠ target) (stored : store.read input = .ok content)
    (no_return : (13 : UInt8) ∉ content.data.toList) (ends_well : (run arguments store).code = 0)
    (parsed_again : parse again = .ok (.convert output copy ⟨.nested, .nested⟩ none none))
    (writable
      : copy = output
        ∨ ∃ other after, (run arguments store).store.write copy other = .ok after)
    : ∃ bytes,
        (run arguments store).store.read output = .ok bytes
        ∧ (run again (run arguments store).store).code = 0
        ∧ (run again (run arguments store).store).store.read copy = .ok bytes := by
  let first := Command.convert input output ⟨.nested, .nested⟩ (some source) (some target)
  let second := Command.convert output copy ⟨.nested, .nested⟩ none none
  have run_first : run arguments store = first.run store := by rw [run, parsed]
  have run_second (store : FileStore) : run again store = second.run store := by
    rw [run, parsed_again]
  rw [run_first] at ends_well writable ⊢
  obtain ⟨result, text, converted, writes, written⟩ := Command.run_succeeds_iff.mp ⟨ends_well, rfl⟩
  have reread := FileStore.read_write written
  obtain ⟨table, converted_again, writes_again⟩ :=
    convertedTable_again stored no_return different converted writes reread
  obtain ⟨later, written_again⟩ : ∃ later,
      (first.run store).store.write copy text.toUTF8 = .ok later := by
    rcases writable with rfl | ⟨_, _, written_other⟩
    · exact FileStore.exists_write_after_write written text.toUTF8
    · exact FileStore.exists_write_of_write written_other text.toUTF8
  obtain ⟨code, store_eq⟩ : (second.run (first.run store).store).code = 0
      ∧ (second.run (first.run store).store).store = later :=
    Command.run_succeeds_iff.mpr
      ⟨table, text, converted_again, writes_again, written_again⟩
  rw [run_second, store_eq]
  exact ⟨_, reread, code, FileStore.read_write written_again⟩

/-- Two classes that get one name, which cuts the descriptor that it comes into. -/
def mergingFile : String :=
  "tiny\t2\t0\tx\ty\tz\nc\ta\tb;L\tc\n\tm\t(La;)V\tm\tn\to\nc\td\tb;L\te\n"

def mergingStore : FileStore := ⟨⟨[(⟨.above 0, ["in"]⟩, mergingFile.toUTF8)], by decide⟩⟩

def mergedText : String := "tiny\t2\t0\ty\tz\nc\tb;L\te\n\tm\t(Lb;L;)V\tn\to\n"

def merging : Exit := run ["convert", "in", "out", "--from", "y", "--to", "z"] mergingStore

/-- What is left of both classes is converted in place, and stays as it is. -/
theorem run_convert_again_merging
    : merging.code = 0
      ∧ merging.store.read "out" = .ok mergedText.toUTF8
      ∧ (run ["convert", "out", "out"] merging.store).code = 0
      ∧ (run ["convert", "out", "out"] merging.store).store.read "out"
          = .ok mergedText.toUTF8 := by
  have parsed : parse ["convert", "in", "out", "--from", "y", "--to", "z"]
      = .ok (.convert "in" "out" ⟨.nested, .nested⟩ (some "y") (some "z")) := by decide +kernel
  have parsed_again : parse ["convert", "out", "out"]
      = .ok (.convert "out" "out" ⟨.nested, .nested⟩ none none) := by decide +kernel
  have stored : mergingStore.read "in" = .ok mergingFile.toUTF8 := by decide +kernel
  have ends_well : merging.code = 0 := by decide +kernel
  have written : merging.store.read "out" = .ok mergedText.toUTF8 := by decide +kernel
  obtain ⟨bytes, here, code, kept⟩ := run_convert_again parsed (by decide) stored
    (by decide +kernel) ends_well parsed_again (Or.inl rfl)
  obtain rfl := Except.ok.inj (written.symm.trans here)
  exact ⟨ends_well, written, code, kept⟩

end NameTables.CommandLine
