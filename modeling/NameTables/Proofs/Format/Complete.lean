import NameTables.Format.Sink
import NameTables.Proofs.Flat.Order
import NameTables.Proofs.Format.Lacking
import NameTables.Proofs.Nested.RoundTrip

/-! Nothing is lost without a word.
A table is written whole or not at all. What is checked before anything is appended to the sink is
all that the writers need, so they pass over nothing that is to be written. A table that does not
pass leaves the sink as it was.
-/

namespace NameTables

-----------------------------------------------------------------------------------------
-- Writing to a sink
-----------------------------------------------------------------------------------------

theorem Row.renderAll_cons (row : Row) (rows : List Row)
    : renderAll (row :: rows) = row.render ++ "\n" ++ renderAll rows := by
  rw [renderAll, List.flatMap_cons, String.ofList_append, String.ofList_append]
  rfl

/-- Appending rows one by one appends their text, by list induction. -/
theorem Row.onto_forM_emit (rows : List Row) (sink : String)
    : Appending.onto (forM rows Row.emit) sink = (.ok (), sink ++ Row.renderAll rows) := by
  induction rows generalizing sink with
  | nil =>
      rw [renderAll, List.flatMap_nil, String.ofList_nil, String.append_empty]
      rfl
  | cons row rows ih =>
      have first : Appending.onto (forM (row :: rows) Row.emit) sink
          = Appending.onto (forM rows Row.emit) (sink ++ row.render ++ "\n") := rfl
      rw [first, ih, renderAll_cons, String.append_assoc, String.append_assoc, String.append_assoc]

namespace Format

theorem writeWith_eq (format : Format) (table : Table 2) (source target : String)
    (arrangement : Arrangement)
    : format.writeWith table source target arrangement
      = table.checkDescriptors.map fun _ =>
          Row.renderAll (format.rows table source target arrangement) := by
  cases format with
  | flat =>
      rw [writeWith, Flat.write]
      cases table.checkDescriptors <;> rfl
  | nested =>
      rw [writeWith, Nested.write]
      cases table.checkDescriptors <;> rfl

/-- A sink takes the text, or nothing if there is none. -/
theorem onto_writeTo (format : Format) (table : Table 2) (source target : String)
    (arrangement : Arrangement) (sink : String)
    : (format.writeTo table source target arrangement).onto sink
      = match format.writeWith table source target arrangement with
        | .ok text => (.ok (), sink ++ text)
        | .error failure => (.error failure, sink) := by
  rw [writeWith_eq, writeTo]
  cases table.checkDescriptors with
  | error failure => rfl
  | ok => exact Row.onto_forM_emit _ sink

-----------------------------------------------------------------------------------------
-- What is to be written
-----------------------------------------------------------------------------------------

/-- (format.Writes table path) says that the entry at the end of the path gets a record: one with a
target name, and in the nested format also a method with a named parameter, and a class with mapped
members or classes in it. Parameters have no record in the flat format.
-/
def Writes (format : Format) (table : Table 2) (path : Path) : Prop :=
  match format with
  | .flat =>
      path.kind ≠ .parameter
        ∧ ∃ names, table.names? path = some names ∧ names.target.isSome = true
  | .nested => Nested.Kept table path

/-- The record of an entry that is written. -/
def record (format : Format) (table : Table 2) (path : Path) : Row :=
  match format with
  | .flat => Flat.row ⟨path, (table.names? path).getD (Table.freshNames path)⟩
  | .nested => (table.written path).row

def headerRow (format : Format) (source target : String) : Row :=
  match format with
  | .flat => Flat.headerRow source target
  | .nested => Nested.headerRow source target

/-- The writer finds all names and descriptors that it looks for, so it passes over nothing. -/
def PassesOverNone (format : Format) (table : Table 2) : Prop :=
  match format with
  | .flat =>
      (∀ cls ∈ Flat.classes table, (Flat.classRow? cls).isSome = true)
        ∧ (∀ field ∈ Flat.fields table, (Flat.fieldRow? field).isSome = true)
        ∧ ∀ method ∈ Flat.methods table, (Flat.methodRow? method).isSome = true
  | .nested =>
      (∀ cls ∈ table.classes.values, cls.names.source.isSome = true)
        ∧ (∀ field ∈ table.fields, field.names.target.isSome = true
            → (Nested.fieldRow? field).isSome = true)
        ∧ ∀ method ∈ table.methods, method.names.source.isSome = true

end Format

/-- The member at the end of the path has a descriptor, and not an empty one. -/
def Path.HasDescriptor : Path → Prop
  | .field _ key => ∃ descriptor, key.descriptor = some descriptor ∧ descriptor.text ≠ ""
  | .method _ key => key.descriptor.text ≠ ""
  | .cls _ | .parameter _ _ _ => True

namespace Format

variable {table : Table 2} {arrangement : Arrangement}

theorem exists_descriptor (checked : table.checkDescriptors = .ok ()) {owner : ClassName}
    {key : FieldKey} {field : Field 2} (stored : table.field? owner key = some field)
    (named : field.names.target.isSome = true)
    : ∃ descriptor, field.descriptor = some descriptor ∧ descriptor.text ≠ "" := by
  have complete := (Table.checkDescriptors_eq_ok_iff.mp checked).1 owner key field stored
  rw [Field.lacksDescriptor, named, Bool.and_true] at complete
  cases found : field.descriptor with
  | none => simp [found] at complete
  | some descriptor => exact ⟨descriptor, rfl, by simpa [found] using complete⟩

theorem descriptor_ne (checked : table.checkDescriptors = .ok ()) {owner : ClassName}
    {key : MethodKey} {method : Method 2} (stored : table.method? owner key = some method)
    (mapped : method.isMapped = true)
    : method.descriptor.text ≠ "" := by
  have complete := (Table.checkDescriptors_eq_ok_iff.mp checked).2 owner key method stored
  simpa [Method.lacksDescriptor, mapped] using complete

theorem exists_field_of_writes {format : Format} {owner : ClassName} {key : FieldKey}
    (writes : format.Writes table (.field owner key))
    : ∃ field, table.field? owner key = some field ∧ field.names.target.isSome = true := by
  cases format with
  | flat =>
      obtain ⟨_, _, found, named⟩ := writes
      obtain ⟨field, stored, rfl⟩ := Option.map_eq_some_iff.mp found
      exact ⟨field, stored, named⟩
  | nested => exact writes

theorem exists_method_of_writes {format : Format} {owner : ClassName} {key : MethodKey}
    (writes : format.Writes table (.method owner key))
    : ∃ method, table.method? owner key = some method ∧ method.isMapped = true := by
  cases format with
  | flat =>
      obtain ⟨_, _, found, named⟩ := writes
      obtain ⟨method, stored, rfl⟩ := Option.map_eq_some_iff.mp found
      exact ⟨method, stored, by rw [Method.isMapped, named, Bool.true_or]⟩
  | nested => exact writes

theorem hasDescriptor_of_writes (coherent : table.Coherent)
    (checked : table.checkDescriptors = .ok ()) {format : Format} {path : Path}
    (writes : format.Writes table path)
    : path.HasDescriptor := by
  cases path with
  | cls | parameter => trivial
  | field owner key =>
      obtain ⟨field, stored, named⟩ := exists_field_of_writes writes
      rw [Path.HasDescriptor, ← (coherent.field stored).2]
      exact exists_descriptor checked stored named
  | method owner key =>
      obtain ⟨method, stored, mapped⟩ := exists_method_of_writes writes
      rw [Path.HasDescriptor, ← (coherent.method stored).2]
      exact descriptor_ne checked stored mapped

-----------------------------------------------------------------------------------------
-- What the writers look for
-----------------------------------------------------------------------------------------

theorem passesOverNone_flat (coherent : table.Coherent) (checked : table.checkDescriptors = .ok ())
    : Format.flat.PassesOverNone table := by
  refine ⟨fun cls listed => ?_, fun field listed => ?_, fun method listed => ?_⟩
  · obtain ⟨owner, stored, named⟩ := Flat.mem_classes_iff.mp listed
    obtain ⟨target, named⟩ := Option.isSome_iff_exists.mp named
    simp [Flat.classRow?, Names.source_eq_first?, coherent.cls stored, named]
  · obtain ⟨key, stored, named⟩ := Flat.mem_fields_iff.mp listed
    obtain ⟨descriptor, described, _⟩ := exists_descriptor checked stored named
    obtain ⟨target, named⟩ := Option.isSome_iff_exists.mp named
    simp [Flat.fieldRow?, Names.source_eq_first?, (coherent.field stored).1, named, described]
  · obtain ⟨key, stored, named⟩ := Flat.mem_methods_iff.mp listed
    obtain ⟨target, named⟩ := Option.isSome_iff_exists.mp named
    simp [Flat.methodRow?, Names.source_eq_first?, (coherent.method stored).1, named]

theorem passesOverNone_nested (coherent : table.Coherent)
    (checked : table.checkDescriptors = .ok ())
    : Format.nested.PassesOverNone table := by
  refine ⟨fun cls listed => ?_, fun field listed named => ?_, fun method listed => ?_⟩
  · obtain ⟨owner, stored⟩ := OrderedMap.mem_values_iff.mp listed
    rw [Nested.source_eq coherent stored]
    rfl
  · obtain ⟨owner, key, stored⟩ := Table.mem_fields_iff.mp listed
    obtain ⟨descriptor, described, _⟩ := exists_descriptor checked stored named
    obtain ⟨target, named⟩ := Option.isSome_iff_exists.mp named
    simp [Nested.fieldRow?, Names.source_eq_first?, (coherent.field stored).1, named, described]
  · obtain ⟨owner, key, stored⟩ := Table.mem_methods_iff.mp listed
    rw [Names.source_eq_first?, (coherent.method stored).1]
    rfl

theorem passesOverNone (coherent : table.Coherent) (checked : table.checkDescriptors = .ok ())
    (format : Format)
    : format.PassesOverNone table := by
  cases format with
  | flat => exact passesOverNone_flat coherent checked
  | nested => exact passesOverNone_nested coherent checked

-----------------------------------------------------------------------------------------
-- One record each
-----------------------------------------------------------------------------------------

/-- What is written, in its order. -/
def paths (format : Format) (table : Table 2) (arrangement : Arrangement) : List Path :=
  match format with
  | .flat => Flat.paths table arrangement
  | .nested => Nested.paths table arrangement

theorem mem_paths_iff (coherent : table.Coherent) {format : Format} {path : Path}
    : path ∈ format.paths table arrangement ↔ format.Writes table path := by
  cases format with
  | flat => exact Flat.mem_paths_iff coherent
  | nested => exact Nested.mem_paths_iff coherent

theorem nodup_paths (coherent : table.Coherent) (format : Format)
    : (format.paths table arrangement).Nodup := by
  cases format with
  | flat => exact Flat.nodup_paths coherent
  | nested => exact Nested.nodup_paths coherent

/-- Below the header stands the record of each entry that is written. -/
theorem rows_eq (coherent : table.Coherent) (checked : table.checkDescriptors = .ok ())
    (format : Format) (source target : String)
    : format.rows table source target arrangement
      = format.headerRow source target
        :: (format.paths table arrangement).map (format.record table) := by
  cases format with
  | flat =>
      rw [rows, Flat.body_eq coherent checked, headerRow, paths, Flat.paths, List.map_map]
      congr 1
      apply List.map_congr_left
      intro declaration member
      have found := ((Flat.mem_written_iff coherent).mp member).2.1
      simp only [Function.comp_apply, record, found, Option.getD_some]
  | nested =>
      rw [rows, Nested.body_eq coherent checked, headerRow, paths, List.map_map]
      rfl

/-- Writing fails exactly if a member lacks its descriptor. Then it tells the first one, and the
sink is as it was. If it does not fail, then everything that is to be written gets one record, with
a descriptor if it is a member, and nothing is passed over.
-/
theorem writeTo_complete (coherent : table.Coherent) (format : Format) (source target : String)
    (arrangement : Arrangement) {sink after : String} {outcome : Outcome Unit}
    (run : (format.writeTo table source target arrangement).onto sink = (outcome, after))
    : ((∃ failure, outcome = .error failure) ↔ ∃ path, table.Lacks path)
      ∧ (∀ failure, outcome = .error failure →
          after = sink
          ∧ ∃ member, table.FirstLacks member
              ∧ failure = .of (.missingDescriptor member.owner member.firstName))
      ∧ (outcome = .ok () →
          format.PassesOverNone table
          ∧ ∃ written : List Path,
              written.Nodup
              ∧ (∀ path, path ∈ written ↔ format.Writes table path)
              ∧ (∀ path ∈ written, path.HasDescriptor)
              ∧ after = sink ++ Row.renderAll
                  (format.headerRow source target :: written.map (format.record table))) := by
  rw [onto_writeTo, writeWith_eq] at run
  cases checked : table.checkDescriptors with
  | error failure =>
      obtain ⟨rfl, rfl⟩ := Prod.mk.inj (checked ▸ run)
      obtain ⟨member, first, told⟩ := (Table.checkDescriptors_eq_error_iff coherent).mp checked
      have lacks : ∃ path, table.Lacks path := by
        obtain ⟨_, _, _, lacks, _⟩ := first
        exact ⟨member, lacks⟩
      refine ⟨iff_of_true ⟨failure, rfl⟩ lacks, ?_, fun done => nomatch done⟩
      intro failure' same
      obtain rfl := Except.error.inj same
      exact ⟨rfl, member, first, told⟩
  | ok =>
      obtain ⟨rfl, rfl⟩ := Prod.mk.inj (checked ▸ run)
      have complete := (Table.checkDescriptors_eq_ok_iff_lacks coherent).mp checked
      refine ⟨iff_of_false ?_ ?_, ?_, fun _ => ⟨passesOverNone coherent checked format,
        format.paths table arrangement, nodup_paths coherent format,
        fun path => mem_paths_iff coherent, fun path member => ?_, ?_⟩⟩
      · rintro ⟨_, same⟩
        cases same
      · rintro ⟨path, lacks⟩
        exact complete path lacks
      · intro _ same
        cases same
      · exact hasDescriptor_of_writes coherent checked ((mem_paths_iff coherent).mp member)
      · rw [rows_eq coherent checked]

/-- A method with an empty descriptor and a name for a parameter only, and a field without a
descriptor behind it.
-/
def undescribed : Table 2 :=
  (Table.empty ⟨#v["server", "named"]⟩).declareAll
    [⟨.cls ⟨"a"⟩, .pair (some ⟨"a"⟩) none⟩,
      ⟨.method ⟨"a"⟩ ⟨⟨"m"⟩, ⟨""⟩⟩, .pair (some ⟨"m"⟩) none⟩,
      ⟨.parameter ⟨"a"⟩ ⟨⟨"m"⟩, ⟨""⟩⟩ 1, .pair none (some ⟨"count"⟩)⟩,
      ⟨.field ⟨"a"⟩ ⟨⟨"f"⟩, none⟩, .pair (some ⟨"f"⟩) (some ⟨"size"⟩)⟩]

theorem undescribed_coherent : undescribed.Coherent := by
  apply Table.declareAll_coherent _ (by decide)
  simp [Path.Fits, Names.first?, Names.pair]

/-- The same members with descriptors, and two without one that are not written. -/
def described : Table 2 :=
  (Table.empty ⟨#v["server", "readable"]⟩).declareAll
    [⟨.cls ⟨"a"⟩, .pair (some ⟨"a"⟩) none⟩,
      ⟨.method ⟨"a"⟩ ⟨⟨"m"⟩, ⟨"(IJ)V"⟩⟩, .pair (some ⟨"m"⟩) none⟩,
      ⟨.parameter ⟨"a"⟩ ⟨⟨"m"⟩, ⟨"(IJ)V"⟩⟩ 1, .pair none (some ⟨"count"⟩)⟩,
      ⟨.method ⟨"a"⟩ ⟨⟨"n"⟩, ⟨""⟩⟩, .pair (some ⟨"n"⟩) none⟩,
      ⟨.field ⟨"a"⟩ ⟨⟨"f"⟩, some ⟨"La;"⟩⟩, .pair (some ⟨"f"⟩) (some ⟨"size"⟩)⟩,
      ⟨.field ⟨"a"⟩ ⟨⟨"g"⟩, none⟩, .pair (some ⟨"g"⟩) none⟩]

theorem described_coherent : described.Coherent := by
  apply Table.declareAll_coherent _ (by decide)
  simp [Path.Fits, Names.first?, Names.pair]

/-- What is written of the table in the nested format. -/
def describedText : String :=
  "tiny\t2\t0\tx\ty\nc\ta\ta\n\tm\t(IJ)V\tm\tm\n\t\tp\t1\t\tcount\n"
    ++ "\tf\tLa;\tf\tsize\n"

theorem writeTo_complete_undescribed
    : ((Format.nested.writeTo undescribed "x" "y" .byName).onto "kept"
          = (.error (.of (.missingDescriptor ⟨"a"⟩ "f")), "kept")
        ∧ ∃ member, undescribed.FirstLacks member
            ∧ Failure.of (.missingDescriptor ⟨"a"⟩ "f")
              = .of (.missingDescriptor member.owner member.firstName))
      ∧ (Format.nested.writeTo described "x" "y" .byName).onto "kept "
          = (.ok (), "kept " ++ describedText)
        ∧ (¬∃ path, described.Lacks path)
        ∧ Format.nested.PassesOverNone described
        ∧ ∃ written : List Path,
            written.Nodup
            ∧ (∀ path, path ∈ written ↔ Format.nested.Writes described path)
            ∧ (∀ path ∈ written, path.HasDescriptor)
            ∧ "kept " ++ describedText
              = "kept " ++ Row.renderAll (Format.nested.headerRow "x" "y"
                  :: written.map (Format.nested.record described)) := by
  have fails : (Format.nested.writeTo undescribed "x" "y" .byName).onto "kept"
      = (.error (.of (.missingDescriptor ⟨"a"⟩ "f")), "kept") := rfl
  have returns : (Format.nested.writeTo described "x" "y" .byName).onto "kept "
      = (.ok (), "kept " ++ describedText) := by
    decide +kernel
  have complete := writeTo_complete undescribed_coherent .nested "x" "y" .byName fails
  obtain ⟨fails_iff, _, whole⟩ :=
    writeTo_complete described_coherent .nested "x" "y" .byName returns
  refine ⟨⟨fails, (complete.2.1 _ rfl).2⟩, returns, ?_, whole rfl⟩
  intro lacks
  obtain ⟨_, same⟩ := fails_iff.mpr lacks
  cases same

end Format

end NameTables
