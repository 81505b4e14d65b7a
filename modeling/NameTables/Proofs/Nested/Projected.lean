import NameTables.Proofs.Format.Headers
import NameTables.Proofs.Format.Legible
import NameTables.Proofs.Nested.Canonical
import NameTables.Proofs.Projection.Plain
import NameTables.Proofs.Table.Origins

/-! Nested files of projections.
The file of a projection tells in its header how many namespaces it has. It holds a table that is
its own projection onto them, and that is written as the same text.
-/

namespace NameTables

namespace Nested

variable {n : Nat}

-----------------------------------------------------------------------------------------
-- Plain tables from files
-----------------------------------------------------------------------------------------

theorem hasPlainDescriptor_of_forall {path : Path}
    (plain : ∀ text ∈ path.descriptors, Text.IsPlain text)
    : Table.HasPlainDescriptor path := by
  cases path with
  | cls | parameter => trivial
  | field owner key =>
      intro descriptor has
      exact plain descriptor.text (List.mem_map_of_mem (Option.mem_toList.mpr has))
  | method owner key => exact plain key.descriptor.text List.mem_cons_self

/-- A file without carriage returns holds a plain table. -/
theorem read_plain {content : ByteArray} {table : Table n}
    (done : Format.nested.read n content = .ok table)
    (no_return : (13 : UInt8) ∉ content.data.toList)
    : table.Plain ∧ ∀ label ∈ table.labels.toList, Text.IsWord label := by
  obtain ⟨enough, labels, declarations, declared, rfl⟩ := exists_declaredIn done
  constructor
  · refine Table.declareAll_plain labels (Nat.zero_lt_of_lt enough) declared.closed
      (fun declaration member => (declared.readable declaration member).fits) ?_ ?_
    · intro declaration member slot listed name here
      obtain ⟨i, found⟩ := Names.exists_get_of_mem_toList (here ▸ listed)
      refine ⟨(declared.readable declaration member).filled i name found, ?_⟩
      have stands := declared.cell declaration member name.text
        (Or.inr (Names.mem_cells_of_get found))
      exact stands.isPlain no_return
    · intro declaration member
      apply hasPlainDescriptor_of_forall
      intro text described
      exact (declared.cell declaration member text (Or.inl described)).isPlain no_return
  · rw [Table.labels_declareAll]
    intro label member
    obtain ⟨nonempty, stands⟩ := declared.label label member
    exact ⟨nonempty, stands.isPlain no_return⟩

-----------------------------------------------------------------------------------------
-- Headers
-----------------------------------------------------------------------------------------

/-- The header tells the number of namespaces. -/
theorem countLabels_headerOf {labels : Labels n} (positive : 0 < n)
    (header_plain : (headerOf labels).IsPlain)
    : Format.nested.countLabels (headerOf labels).render = .ok n :=
  Format.countLabels_render positive rfl header_plain.writable.no_tab rfl

theorem countLabels_written {table : Table 2} (coherent : table.Coherent) (plain : table.Plain)
    {source target : String} (source_word : Text.IsWord source) (target_word : Text.IsWord target)
    {arrangement : Arrangement} {text : String}
    (writes : Format.nested.writeWith table source target arrangement = .ok text)
    : Format.nested.countLabels (Text.firstLine text) = .ok 2 := by
  obtain ⟨checked, rfl⟩ := writeWith_eq_ok_iff.mp writes
  have header : headerRow source target = headerOf ⟨#v[source, target]⟩ := rfl
  have rows_plain := rows_isPlain coherent plain checked source_word target_word arrangement
  rw [Row.firstLine_renderAll rows_plain, header]
  exact countLabels_headerOf (by decide) (header ▸ headerRow_isPlain source_word target_word)

-----------------------------------------------------------------------------------------
-- The table in the file of a projection
-----------------------------------------------------------------------------------------

section Reread

variable {table : Table 2} (coherent : table.Coherent) (arrangement : Arrangement)
  (labels : Labels 2)

include coherent

/-- Whatever is read has the descriptor that was written. -/
theorem reread_descriptorsClosed (closed : table.DescriptorsClosed)
    : (reread table arrangement labels).DescriptorsClosed := by
  have again := reread_coherent table arrangement labels
  constructor
  · intro field member
    obtain ⟨owner, key, stored⟩ := Table.mem_fields_iff.mp member
    have found : (reread table arrangement labels).names? (.field owner key) = some field.names :=
      Option.map_eq_some_iff.mpr ⟨field, stored, rfl⟩
    obtain ⟨was, was_stored, _⟩ := ((names?_reread_eq_some_iff coherent).mp found).1
    rw [(again.field stored).2, ← (coherent.field was_stored).2]
    exact closed.field was (Table.mem_fields_iff.mpr ⟨owner, key, was_stored⟩)
  · intro method member
    obtain ⟨owner, key, stored⟩ := Table.mem_methods_iff.mp member
    have found : (reread table arrangement labels).names? (.method owner key)
        = some method.names :=
      Option.map_eq_some_iff.mpr ⟨method, stored, rfl⟩
    obtain ⟨was, was_stored, _⟩ := ((names?_reread_eq_some_iff coherent).mp found).1
    rw [(again.method stored).2, ← (coherent.method was_stored).2]
    exact closed.method was (Table.mem_methods_iff.mpr ⟨owner, key, was_stored⟩)

theorem reread_filled (plain : table.Plain) {kind : Kind} {names : Names 2 kind}
    (member : names ∈ (reread table arrangement labels).namesOf kind)
    : names.Filled := by
  refine Table.forall_mem_namesOf (P := fun names => names.Filled) ?_ member
  intro path names found i name named
  obtain ⟨kept, rfl⟩ := (names?_reread_eq_some_iff coherent).mp found
  exact (writtenNames_isWord coherent plain kept named).1

end Reread

/-- A projection is written to a file that is read at the count in its header, and nothing changes
when its table is projected once more.
-/
theorem exists_of_write_projection {table : Table n} (coherent : table.Coherent)
    (plain : table.Plain) (words : ∀ label ∈ table.labels.toList, Text.IsWord label)
    {source target : String} (different : source ≠ target) {result : Table 2}
    (projected : table.project source target = .ok result) {text : String}
    (writes : Format.nested.write result = .ok text)
    : Format.nested.countLabels (Text.firstLine text) = .ok 2
      ∧ ∃ again, Format.nested.read 2 text.toUTF8 = .ok again
          ∧ again.labels = ⟨#v[source, target]⟩
          ∧ again.project source target = .ok again
          ∧ Format.nested.write again = .ok text := by
  have closed := Table.project_descriptorsClosed projected
  obtain ⟨i, j, found_source, found_target, nonempty, _, rfl⟩ := Table.project_eq_ok projected
  have source_word : Text.IsWord source := words source (Labels.mem_of_find? found_source)
  have target_word : Text.IsWord target := words target (Labels.mem_of_find? found_target)
  have result_coherent : (table.projection ⟨#v[source, target]⟩ i j).Coherent :=
    Table.projection_coherent
  have result_plain : (table.projection ⟨#v[source, target]⟩ i j).Plain :=
    plain.projection coherent _
  have labelled : Format.nested.writeWith (table.projection ⟨#v[source, target]⟩ i j) source target
      .byName = .ok text := by
    rw [Format.write, Table.labels_projection] at writes
    exact writes
  refine ⟨countLabels_written result_coherent result_plain source_word target_word labelled, _,
    read_eq_reread result_coherent result_plain source_word target_word labelled,
    labels_reread .., ?_, write_reread result_coherent labelled⟩
  apply (reread_coherent ..).project_self (reread_descriptorsClosed result_coherent _ _ closed)
    (labels_reread ..) different nonempty
  exact fun names => reread_filled result_coherent _ _ result_plain

end Nested

end NameTables
