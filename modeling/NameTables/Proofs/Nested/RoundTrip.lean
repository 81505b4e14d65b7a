import NameTables.Proofs.Nested.Written

/-! Reading what was written.
A written file holds the normal form of the table: the classes that carry mappings with their full
target names, and in them the mapped fields, methods and parameters.
-/

namespace NameTables

/-- A parameter with a target name loses its other name. -/
def Parameter.normal? (parameter : Parameter 2) : Option (Parameter 2) :=
  if parameter.names.target.isSome then
    some { parameter with names := .pair none parameter.names.target }
  else none

/-- A mapped method without a target name gets its own name as one. -/
def Method.normal? (method : Method 2) : Option (Method 2) :=
  if method.isMapped then
    some
      { method with
        names := method.names.setTarget (method.names.target.or method.names.source)
        parameters := method.parameters.filterMap fun _ => Parameter.normal? }
  else none

/-- A class gets its full target name, and keeps what is mapped in it. -/
def Class.normal (cls : Class 2) (fullTarget : ClassName) : Class 2 where
  names := cls.names.setTarget (some fullTarget)
  fields := cls.fields.filterMap fun _ => Field.normal?
  methods := cls.methods.filterMap fun _ => Method.normal?

/-- What a file of the table holds, under new labels: the classes that carry mappings. -/
def Table.normal (table : Table 2) (labels : Labels 2) : Table 2 where
  labels
  classes := table.classes.filterMap fun owner cls =>
    if table.carries owner then some (cls.normal (table.fullTarget owner)) else none

namespace Table

variable {table : Table 2} {labels : Labels 2}

theorem class?_normal (owner : ClassName)
    : (table.normal labels).class? owner
      = (table.class? owner).bind fun cls =>
          if table.carries owner then some (cls.normal (table.fullTarget owner)) else none :=
  OrderedMap.get?_filterMap ..

/-- What is mapped stays, and its class with it. -/
theorem field?_normal (owner : ClassName) (key : FieldKey)
    : (table.normal labels).field? owner key
      = (table.field? owner key).bind Field.normal? := by
  have fields_eq : (table.normal labels).field? owner key
      = ((table.normal labels).class? owner).bind fun cls => cls.fields.get? key := rfl
  rw [fields_eq, class?_normal]
  apply OrderedMap.bind_get?_filterMap
  · intro cls cls' kept
    obtain ⟨_, same⟩ := Option.ite_none_right_eq_some.mp kept
    obtain rfl := Option.some.inj same
    rfl
  · intro cls field stored dropped found
    refine if_neg fun mapped => ?_
    have kept : Nested.Kept table (.field owner key) :=
      ⟨field, Option.bind_eq_some_iff.mpr ⟨cls, stored, found⟩, mapped⟩
    have carried := (kept.above (by simp [Path.above] : Path.cls owner ∈ _)).2
    simp [carried] at dropped

theorem method?_normal (owner : ClassName) (key : MethodKey)
    : (table.normal labels).method? owner key
      = (table.method? owner key).bind Method.normal? := by
  have methods_eq : (table.normal labels).method? owner key
      = ((table.normal labels).class? owner).bind fun cls => cls.methods.get? key := rfl
  rw [methods_eq, class?_normal]
  apply OrderedMap.bind_get?_filterMap
  · intro cls cls' kept
    obtain ⟨_, same⟩ := Option.ite_none_right_eq_some.mp kept
    obtain rfl := Option.some.inj same
    rfl
  · intro cls method stored dropped found
    refine if_neg fun mapped => ?_
    have kept : Nested.Kept table (.method owner key) :=
      ⟨method, Option.bind_eq_some_iff.mpr ⟨cls, stored, found⟩, mapped⟩
    have carried := (kept.above (by simp [Path.above] : Path.cls owner ∈ _)).2
    simp [carried] at dropped

theorem parameter?_normal (owner : ClassName) (key : MethodKey) (index : UInt64)
    : (table.normal labels).parameter? owner key index
      = (table.parameter? owner key index).bind Parameter.normal? := by
  have parameters_eq : (table.normal labels).parameter? owner key index
      = ((table.normal labels).method? owner key).bind fun method =>
          method.parameters.get? index := rfl
  rw [parameters_eq, method?_normal]
  apply OrderedMap.bind_get?_filterMap
  · intro method method' kept
    obtain ⟨_, same⟩ := Option.ite_none_right_eq_some.mp kept
    obtain rfl := Option.some.inj same
    rfl
  · intro method parameter stored dropped found
    refine if_neg fun named => ?_
    obtain ⟨_, same, mapped⟩ := Nested.kept_of_parameter?
      (Option.bind_eq_some_iff.mpr ⟨method, stored, found⟩) named
    obtain rfl := Option.some.inj (stored.symm.trans same)
    simp [Method.normal?, mapped] at dropped

theorem map_ite_eq_some_iff {α β : Type} {p : Prop} [Decidable p] {a : α} {f : α → β} {b : β}
    : (if p then some a else none).map f = some b ↔ p ∧ b = f a := by
  split
  · next holds => simp [holds, eq_comm]
  · next fails => simp [fails]

/-- The normal form has the names that are written, at the paths that are written. -/
theorem names?_normal_eq_some_iff (coherent : table.Coherent) {path : Path}
    {names : Names 2 path.kind}
    : (table.normal labels).names? path = some names
      ↔ Nested.Kept table path ∧ names = table.writtenNames path := by
  cases path with
  | cls owner =>
      rw [names?_cls, class?_normal]
      cases stored : table.class? owner with
      | none =>
          simp only [Option.bind_none, Option.map_none, reduceCtorEq, false_iff]
          intro given
          rcases given with ⟨⟨listed, _⟩, _⟩
          obtain ⟨cls, found⟩ := mem_keys_iff.mp listed
          simp [stored] at found
      | some cls =>
          have kept_iff : Nested.Kept table (.cls owner) ↔ table.carries owner = true :=
            and_iff_right (mem_keys_iff.mpr ⟨cls, stored⟩)
          have names_eq : (cls.normal (table.fullTarget owner)).names
              = table.writtenNames (.cls owner) :=
            Names.setTarget_eq_pair (coherent.cls stored) _
          rw [Option.bind_some, map_ite_eq_some_iff, kept_iff, names_eq]
  | field owner key =>
      rw [names?_field, field?_normal]
      cases stored : table.field? owner key with
      | none => simp [Nested.Kept, stored]
      | some field =>
          have kept_iff : Nested.Kept table (.field owner key)
              ↔ field.names.target.isSome = true := by
            simp [Nested.Kept, stored]
          have target_eq : table.targetAt? (.field owner key) = field.names.target :=
            Table.targetAt?_of_names? (Option.map_eq_some_iff.mpr ⟨field, stored, rfl⟩)
          have names_eq : field.names = table.writtenNames (.field owner key) := by
            rw [writtenNames, target_eq, ← Names.setTarget_eq_pair (coherent.field stored).1,
              Names.setTarget_target]
          rw [Option.bind_some, Field.normal?, map_ite_eq_some_iff, kept_iff, names_eq]
  | method owner key =>
      rw [names?_method, method?_normal]
      cases stored : table.method? owner key with
      | none => simp [Nested.Kept, stored]
      | some method =>
          have kept_iff : Nested.Kept table (.method owner key) ↔ method.isMapped = true := by
            simp [Nested.Kept, stored]
          have target_eq : table.targetAt? (.method owner key) = method.names.target :=
            Table.targetAt?_of_names? (Option.map_eq_some_iff.mpr ⟨method, stored, rfl⟩)
          have names_eq : method.names.setTarget (method.names.target.or method.names.source)
              = table.writtenNames (.method owner key) := by
            have first := (coherent.method stored).1
            rw [Names.setTarget_eq_pair first, Names.source_eq_first?, first, writtenNames,
              target_eq]
            cases method.names.target <;> rfl
          rw [Option.bind_some, Method.normal?, map_ite_eq_some_iff, kept_iff, names_eq]
  | parameter owner key index =>
      rw [names?_parameter, parameter?_normal]
      cases stored : table.parameter? owner key index with
      | none => simp [Nested.Kept, stored]
      | some parameter =>
          have kept_iff : Nested.Kept table (.parameter owner key index)
              ↔ parameter.names.target.isSome = true := by
            simp [Nested.Kept, stored]
          have target_eq : table.targetAt? (.parameter owner key index)
              = parameter.names.target :=
            Table.targetAt?_of_names? (Option.map_eq_some_iff.mpr ⟨parameter, stored, rfl⟩)
          rw [Option.bind_some, Parameter.normal?, map_ite_eq_some_iff, kept_iff, writtenNames,
            target_eq]

/-- Normal forms keep descriptors and indices, so they are coherent. -/
theorem normal_coherent (coherent : table.Coherent) : (table.normal labels).Coherent := by
  have described : (table.normal labels).Described := by
    constructor
    · intro owner key field found
      rw [field?_normal, Option.bind_eq_some_iff] at found
      obtain ⟨was, stored, kept⟩ := found
      obtain ⟨_, same⟩ := Option.ite_none_right_eq_some.mp kept
      obtain rfl := Option.some.inj same
      exact (coherent.field stored).2
    · intro owner key method found
      rw [method?_normal, Option.bind_eq_some_iff] at found
      obtain ⟨was, stored, kept⟩ := found
      obtain ⟨_, same⟩ := Option.ite_none_right_eq_some.mp kept
      obtain rfl := Option.some.inj same
      exact (coherent.method stored).2
    · intro owner key index parameter found
      rw [parameter?_normal, Option.bind_eq_some_iff] at found
      obtain ⟨was, stored, kept⟩ := found
      obtain ⟨_, same⟩ := Option.ite_none_right_eq_some.mp kept
      obtain rfl := Option.some.inj same
      exact (coherent.parameter stored : was.index = index)
  apply described.coherent
  intro path names found
  obtain ⟨_, rfl⟩ := (names?_normal_eq_some_iff coherent).mp found
  exact Nested.writtenNames_fits table path

end Table

-----------------------------------------------------------------------------------------
-- Reading a written file
-----------------------------------------------------------------------------------------

namespace Nested

variable {table : Table 2}

/-- The table that a written file holds. -/
def reread (table : Table 2) (arrangement : Arrangement) (labels : Labels 2) : Table 2 :=
  (Table.empty labels).declareAll ((paths table arrangement).map table.written)

theorem map_path_written (paths : List Path)
    : (paths.map table.written).map Declaration.path = paths := by
  rw [List.map_map]
  exact List.map_id paths

/-- The table has the names that were written, at the paths that were written. -/
theorem names?_reread_eq_some_iff (coherent : table.Coherent) {arrangement : Arrangement}
    {labels : Labels 2} {path : Path} {names : Names 2 path.kind}
    : (reread table arrangement labels).names? path = some names
      ↔ Kept table path ∧ names = table.writtenNames path := by
  have closed : OwnersDeclared ((paths table arrangement).map table.written) := by
    apply Ordered.ownersDeclared
    rw [map_path_written]
    exact ordered_paths
  have nodup : (((paths table arrangement).map table.written).map Declaration.path).Nodup := by
    rw [map_path_written]
    exact nodup_paths coherent
  rw [reread, Table.names?_declareAll labels closed, lastDeclared?_eq_some_iff nodup,
    List.mem_map]
  constructor
  · intro given
    rcases given with ⟨_, listed, same⟩
    obtain ⟨rfl, names_eq⟩ := Declaration.mk.inj same
    exact ⟨(mem_paths_iff coherent).mp listed, (eq_of_heq names_eq).symm⟩
  · intro given
    rcases given with ⟨kept, rfl⟩
    exact ⟨path, (mem_paths_iff coherent).mpr kept, rfl⟩

theorem reread_coherent (table : Table 2) (arrangement : Arrangement) (labels : Labels 2)
    : (reread table arrangement labels).Coherent := by
  apply Table.declareAll_coherent labels (by decide)
  intro declaration member
  obtain ⟨path, _, rfl⟩ := List.mem_map.mp member
  exact writtenNames_fits table path

theorem labels_reread (table : Table 2) (arrangement : Arrangement) (labels : Labels 2)
    : (reread table arrangement labels).labels = labels :=
  Table.labels_declareAll labels _

/-- Only tables whose mapped members have descriptors are written. -/
theorem writeWith_eq_ok_iff {source target : String} {arrangement : Arrangement} {text : String}
    : Format.nested.writeWith table source target arrangement = .ok text
      ↔ table.checkDescriptors = .ok ()
        ∧ text = Row.renderAll (headerRow source target :: body table arrangement) :=
  Outcome.check_eq_ok_iff

theorem read_eq_reread (coherent : table.Coherent) (plain : table.Plain)
    {source target : String} (source_word : Text.IsWord source) (target_word : Text.IsWord target)
    {arrangement : Arrangement} {text : String}
    (writes : Format.nested.writeWith table source target arrangement = .ok text)
    : Format.nested.read 2 text.toUTF8 = .ok (reread table arrangement ⟨#v[source, target]⟩) := by
  obtain ⟨checked, rfl⟩ := writeWith_eq_ok_iff.mp writes
  exact read_written coherent plain checked source_word target_word

/-- A written file is read as the normal form of the table, the order of entries aside. -/
theorem read_written_agrees_normal (coherent : table.Coherent) (plain : table.Plain)
    {source target : String} (source_word : Text.IsWord source) (target_word : Text.IsWord target)
    {arrangement : Arrangement} {text : String}
    (writes : Format.nested.writeWith table source target arrangement = .ok text)
    : ∃ result, Format.nested.read 2 text.toUTF8 = .ok result
        ∧ result.agree (table.normal ⟨#v[source, target]⟩) = true := by
  refine ⟨_, read_eq_reread coherent plain source_word target_word writes, ?_⟩
  apply (reread_coherent table arrangement _).agree_of_names? (Table.normal_coherent coherent)
  · exact labels_reread table arrangement _
  · intro path
    apply Option.ext
    intro names
    rw [names?_reread_eq_some_iff coherent, Table.names?_normal_eq_some_iff coherent]

/-- A class with a target name, and in it one without, where a parameter is named. The last class is
not written.
-/
def renamedOuter : Table 2 :=
  (Table.empty ⟨#v["official", "named"]⟩).declareAll
    [⟨.cls ⟨"a"⟩, .pair (some ⟨"a"⟩) (some ⟨"Outer"⟩)⟩,
      ⟨.cls ⟨"a$b"⟩, .pair (some ⟨"a$b"⟩) none⟩,
      ⟨.method ⟨"a$b"⟩ ⟨⟨"m"⟩, ⟨"(I)V"⟩⟩, .pair (some ⟨"m"⟩) none⟩,
      ⟨.parameter ⟨"a$b"⟩ ⟨⟨"m"⟩, ⟨"(I)V"⟩⟩ 1, .pair none (some ⟨"count"⟩)⟩,
      ⟨.cls ⟨"e"⟩, .pair (some ⟨"e"⟩) none⟩]

theorem renamedOuter_coherent : renamedOuter.Coherent := by
  apply Table.declareAll_coherent _ (by decide)
  simp [Path.Fits, Names.first?, Names.pair]

theorem renamedOuter_plain : renamedOuter.Plain := by
  apply Table.declareAll_plain _ (by decide)
  · unfold OwnersDeclared
    decide
  · simp [Path.Fits, Names.first?, Names.pair]
  · decide
  · decide

/-- What is written below the header. -/
def renamedOuterLines : String :=
  "c\ta\tOuter\nc\ta$b\tOuter$b\n\tm\t(I)V\tm\tm\n\t\tp\t1\t\tcount\n"

/-- The inner class comes back with its full target name. -/
theorem read_written_renamedOuter
    : Format.nested.writeWith renamedOuter "x" "y" .byName
        = .ok ("tiny\t2\t0\tx\ty\n" ++ renamedOuterLines)
      ∧ (renamedOuter.normal ⟨#v["x", "y"]⟩).names? (.cls ⟨"a$b"⟩)
        = some (.pair (some ⟨"a$b"⟩) (some ⟨"Outer$b"⟩))
      ∧ (renamedOuter.normal ⟨#v["x", "y"]⟩).classes.keys = [⟨"a"⟩, ⟨"a$b"⟩]
      ∧ ∃ result,
          Format.nested.read 2 ("tiny\t2\t0\tx\ty\n" ++ renamedOuterLines).toUTF8 = .ok result
          ∧ result.agree (renamedOuter.normal ⟨#v["x", "y"]⟩) = true := by
  have writes : Format.nested.writeWith renamedOuter "x" "y" .byName
      = .ok ("tiny\t2\t0\tx\ty\n" ++ renamedOuterLines) :=
    writeWith_eq_ok_iff.mpr ⟨rfl, by decide +kernel⟩
  exact ⟨writes, by decide +kernel, by decide +kernel, read_written_agrees_normal
    renamedOuter_coherent renamedOuter_plain (by decide) (by decide) writes⟩

end Nested

end NameTables
