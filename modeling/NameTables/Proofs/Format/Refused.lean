import NameTables.Proofs.Format.Complete
import NameTables.Proofs.Nested.Canonical
import NameTables.Proofs.Table.Origins

/-! For which members a table is refused.
Both formats look for the descriptors that a nested file needs. A nested file has a record of every
method with a named parameter, and a flat file has none. So a table can be refused in the flat
format for a method that is not to be written.
-/

namespace NameTables

namespace Table

/-- The method has no target name itself, but one of its parameters has one. -/
def NamesOnlyParameters (table : Table 2) (owner : ClassName) (key : MethodKey) : Prop :=
  (∃ method, table.method? owner key = some method ∧ method.names.target = none)
    ∧ ∃ index parameter, table.parameter? owner key index = some parameter
        ∧ parameter.names.target.isSome = true

variable {table : Table 2}

/-- What lacks its descriptor is what a nested file would need it for. -/
theorem Coherent.lacks_iff (coherent : table.Coherent) {path : Path}
    : table.Lacks path ↔ Format.nested.Writes table path ∧ ¬path.HasDescriptor := by
  cases path with
  | cls | parameter => exact iff_of_false id fun given => given.2 trivial
  | field owner key =>
      constructor
      · intro given
        rcases given with ⟨field, stored, named, lacking⟩
        refine ⟨⟨field, stored, named⟩, ?_⟩
        rintro ⟨descriptor, described, filled⟩
        exact filled (lacking descriptor ((coherent.field stored).2.trans described))
      · intro given
        rcases given with ⟨⟨field, stored, named⟩, lacking⟩
        refine ⟨field, stored, named, fun descriptor described => ?_⟩
        by_contra filled
        exact lacking ⟨descriptor, (coherent.field stored).2.symm.trans described, filled⟩
  | method owner key =>
      rw [← lacksAt_iff, lacksAt, Option.any_eq_true]
      constructor
      · intro given
        rcases given with ⟨method, stored, lacking⟩
        obtain ⟨empty, mapped⟩ := by simpa [Method.lacksDescriptor] using lacking
        refine ⟨⟨method, stored, mapped⟩, fun filled => filled ?_⟩
        rw [← (coherent.method stored).2, empty]
      · intro given
        rcases given with ⟨⟨method, stored, mapped⟩, lacking⟩
        have empty : key.descriptor.text = "" := Classical.not_not.mp lacking
        refine ⟨method, stored, ?_⟩
        simp [Method.lacksDescriptor, (coherent.method stored).2, empty, mapped]

/-- What a nested file needs and a flat one does not is for methods with a name for a parameter. -/
theorem Coherent.lacks_iff_flat (coherent : table.Coherent)
    : (∃ path, table.Lacks path)
      ↔ (∃ path, Format.flat.Writes table path ∧ ¬path.HasDescriptor)
        ∨ ∃ owner key, table.NamesOnlyParameters owner key ∧ key.descriptor.text = "" := by
  constructor
  · intro given
    rcases given with ⟨path, lacks⟩
    have lacking := (coherent.lacks_iff.mp lacks).2
    cases path with
    | cls | parameter => exact lacks.elim
    | field owner key =>
        obtain ⟨field, stored, named, _⟩ := lacks
        refine Or.inl ⟨.field owner key, ⟨by simp, field.names, ?_, named⟩, lacking⟩
        rw [names?_field, stored]
        rfl
    | method owner key =>
        obtain ⟨method, stored, mapped, empty⟩ := lacks
        by_cases named : method.names.target.isSome = true
        · refine Or.inl ⟨.method owner key, ⟨by simp, method.names, ?_, named⟩, lacking⟩
          rw [names?_method, stored]
          rfl
        · have unnamed : method.names.target = none := by simpa using named
          refine Or.inr ⟨owner, key, ⟨⟨method, stored, unnamed⟩, ?_⟩, ?_⟩
          · exact mapped.resolve_left named
          · rw [← (coherent.method stored).2, empty]
  · intro given
    rcases given with ⟨path, writes, lacking⟩ | ⟨owner, key, ⟨⟨method, stored, _⟩, named⟩, empty⟩
    · refine ⟨path, coherent.lacks_iff.mpr ⟨?_, lacking⟩⟩
      obtain ⟨_, names, found, named⟩ := writes
      exact Nested.kept_of_target found named
    · refine ⟨.method owner key, method, stored, Or.inr named, ?_⟩
      rw [(coherent.method stored).2, empty]

end Table

namespace Format

variable {table : Table 2}

/-- The table is not written, since a member has no descriptor. -/
def Refuses (format : Format) (table : Table 2) (source target : String)
    (arrangement : Arrangement)
    : Prop :=
  ∃ owner member, format.writeWith table source target arrangement
    = .error (.of (.missingDescriptor owner member))

theorem refuses_iff_exists_lacks (coherent : table.Coherent) (format : Format)
    (source target : String) (arrangement : Arrangement)
    : format.Refuses table source target arrangement ↔ ∃ path, table.Lacks path := by
  rw [Refuses, writeWith_eq]
  cases checked : table.checkDescriptors with
  | ok =>
      refine iff_of_false (by simp [Except.map]) ?_
      rintro ⟨path, lacks⟩
      exact (Table.checkDescriptors_eq_ok_iff_lacks coherent).mp checked path lacks
  | error failure =>
      obtain ⟨member, ⟨_, _, _, lacks, _⟩, rfl⟩ :=
        (Table.checkDescriptors_eq_error_iff coherent).mp checked
      exact iff_of_true ⟨member.owner, member.firstName, rfl⟩ ⟨member, lacks⟩

/-- Either format refuses the tables with a member that would be in a nested file and has no
descriptor. So a flat file is refused for a member that would be in it, exactly if there is such a
member or no method with an empty descriptor has names for its parameters only.
-/
theorem refuses_written_iff (coherent : table.Coherent) (source target : String)
    (arrangement : Arrangement)
    : (∀ format : Format, format.Refuses table source target arrangement
        ↔ ∃ path, nested.Writes table path ∧ ¬path.HasDescriptor)
      ∧ ((flat.Refuses table source target arrangement
            → ∃ path, flat.Writes table path ∧ ¬path.HasDescriptor)
        ↔ (∃ path, flat.Writes table path ∧ ¬path.HasDescriptor)
          ∨ ¬∃ owner key, table.NamesOnlyParameters owner key ∧ key.descriptor.text = "") := by
  constructor
  · intro format
    rw [refuses_iff_exists_lacks coherent]
    exact exists_congr fun path => coherent.lacks_iff
  · rw [refuses_iff_exists_lacks coherent, coherent.lacks_iff_flat]
    by_cases written : ∃ path, flat.Writes table path ∧ ¬path.HasDescriptor
    · exact iff_of_true (fun _ => written) (Or.inl written)
    · simp only [written, false_or, imp_false]

/-- A table that is refused for a method with an empty descriptor and a name for a parameter only,
but would be for the field behind it as well.
-/
theorem refuses_written_undescribed
    : undescribed.NamesOnlyParameters ⟨"a"⟩ ⟨⟨"m"⟩, ⟨""⟩⟩
      ∧ flat.Refuses undescribed "x" "y" .byName
      ∧ ∃ path, flat.Writes undescribed path ∧ ¬path.HasDescriptor := by
  have refused : flat.Refuses undescribed "x" "y" .byName := ⟨⟨"a"⟩, "f", rfl⟩
  have written : flat.Writes undescribed (.field ⟨"a"⟩ ⟨⟨"f"⟩, none⟩) :=
    ⟨by decide, .pair (some ⟨"f"⟩) (some ⟨"size"⟩), by decide, rfl⟩
  have lacking : ¬(Path.field ⟨"a"⟩ ⟨⟨"f"⟩, none⟩).HasDescriptor := by
    rintro ⟨_, absent, _⟩
    cases absent
  refine ⟨⟨⟨_, rfl, rfl⟩, 1, _, rfl, rfl⟩, refused, ?_⟩
  exact (refuses_written_iff undescribed_coherent "x" "y" .byName).2.mpr
    (Or.inl ⟨_, written, lacking⟩) refused

/-- A name is set for a parameter of a method without a descriptor. -/
def parameterNamed : Table 2 :=
  ((Table.empty ⟨#v["official", "deobf"]⟩).rename (.parameter ⟨"a"⟩ ⟨⟨"m"⟩, ⟨""⟩⟩ 0) (Fin.last 1)
    (some ⟨"count"⟩)).1

theorem parameterNamed_coherent : parameterNamed.Coherent :=
  (Table.empty_coherent _).rename (by decide) ..

/-- It is refused in the flat format, where nothing is to be written but the header. -/
theorem not_refuses_written_parameterNamed
    : parameterNamed.Coherent
      ∧ flat.write parameterNamed = .error (.of (.missingDescriptor ⟨"a"⟩ "m"))
      ∧ flat.rows parameterNamed "official" "deobf" .byName = [⟨0, "v1", ["official", "deobf"]⟩]
      ∧ ¬∃ path, flat.Writes parameterNamed path ∧ ¬path.HasDescriptor := by
  refine ⟨parameterNamed_coherent, rfl, by decide +kernel, ?_⟩
  rintro ⟨path, writes, _⟩
  have listed : path ∈ flat.paths parameterNamed .byName :=
    (mem_paths_iff parameterNamed_coherent).mpr writes
  have none_listed : flat.paths parameterNamed .byName = [] := by decide +kernel
  simp [none_listed] at listed

end Format

end NameTables
