import NameTables.Proofs.Flat.Written
import NameTables.Proofs.Table.Retargets

/-! Reading what was written in the flat format.
A written file holds the classes, fields and methods with a target name. A class without one comes
back if a member of it was written, and has no target name again.
-/

namespace NameTables

/-- A method with a target name loses its parameters. -/
def Method.flattened? (method : Method 2) : Option (Method 2) :=
  if method.names.target.isSome then some { method with parameters := .empty } else none

/-- The class has a target name, or a field or a method of it has one. -/
def Class.isNamed (cls : Class 2) : Bool :=
  cls.names.target.isSome
    || (cls.fields.values.any fun field => field.names.target.isSome)
    || cls.methods.values.any fun method => method.names.target.isSome

/-- A class keeps its own names, and the fields and methods with target names. -/
def Class.flattened? (cls : Class 2) : Option (Class 2) :=
  if cls.isNamed then
    some
      { cls with
        fields := cls.fields.filterMap fun _ => Field.normal?
        methods := cls.methods.filterMap fun _ => Method.flattened? }
  else none

/-- What a flat file of the table holds, under new labels. -/
def Table.flattened (table : Table 2) (labels : Labels 2) : Table 2 where
  labels
  classes := table.classes.filterMap fun _ => Class.flattened?

theorem Class.isNamed_iff {cls : Class 2}
    : cls.isNamed = true
      ↔ cls.names.target.isSome = true
        ∨ (∃ key field, cls.fields.get? key = some field ∧ field.names.target.isSome = true)
        ∨ ∃ key method, cls.methods.get? key = some method ∧ method.names.target.isSome = true := by
  simp only [isNamed, Bool.or_eq_true, List.any_eq_true, OrderedMap.mem_values_iff, or_assoc]
  constructor
  · intro given
    rcases given with named | ⟨field, ⟨key, stored⟩, named⟩ | ⟨method, ⟨key, stored⟩, named⟩
    · exact Or.inl named
    · exact Or.inr (Or.inl ⟨key, field, stored, named⟩)
    · exact Or.inr (Or.inr ⟨key, method, stored, named⟩)
  · intro given
    rcases given with named | ⟨key, field, stored, named⟩ | ⟨key, method, stored, named⟩
    · exact Or.inl named
    · exact Or.inr (Or.inl ⟨field, ⟨key, stored⟩, named⟩)
    · exact Or.inr (Or.inr ⟨method, ⟨key, stored⟩, named⟩)

namespace Table

variable {table : Table 2} {labels : Labels 2}

theorem class?_flattened (owner : ClassName)
    : (table.flattened labels).class? owner = (table.class? owner).bind Class.flattened? :=
  OrderedMap.get?_filterMap ..

/-- What has a target name stays, and its class with it. -/
theorem field?_flattened (owner : ClassName) (key : FieldKey)
    : (table.flattened labels).field? owner key
      = (table.field? owner key).bind Field.normal? := by
  have fields_eq : (table.flattened labels).field? owner key
      = ((table.flattened labels).class? owner).bind fun cls => cls.fields.get? key := rfl
  rw [fields_eq, class?_flattened]
  apply OrderedMap.bind_get?_filterMap
  · intro cls cls' kept
    obtain ⟨_, same⟩ := Option.ite_none_right_eq_some.mp kept
    obtain rfl := Option.some.inj same
    rfl
  · intro cls field stored dropped found
    refine if_neg fun named => ?_
    have kept := Class.isNamed_iff.mpr (Or.inr (Or.inl ⟨key, field, found, named⟩))
    simp [Class.flattened?, kept] at dropped

theorem method?_flattened (owner : ClassName) (key : MethodKey)
    : (table.flattened labels).method? owner key
      = (table.method? owner key).bind Method.flattened? := by
  have methods_eq : (table.flattened labels).method? owner key
      = ((table.flattened labels).class? owner).bind fun cls => cls.methods.get? key := rfl
  rw [methods_eq, class?_flattened]
  apply OrderedMap.bind_get?_filterMap
  · intro cls cls' kept
    obtain ⟨_, same⟩ := Option.ite_none_right_eq_some.mp kept
    obtain rfl := Option.some.inj same
    rfl
  · intro cls method stored dropped found
    refine if_neg fun named => ?_
    have kept := Class.isNamed_iff.mpr (Or.inr (Or.inr ⟨key, method, found, named⟩))
    simp [Class.flattened?, kept] at dropped

theorem parameter?_flattened (owner : ClassName) (key : MethodKey) (index : UInt64)
    : (table.flattened labels).parameter? owner key index = none := by
  have parameters_eq : (table.flattened labels).parameter? owner key index
      = ((table.flattened labels).method? owner key).bind fun method =>
          method.parameters.get? index := rfl
  rw [parameters_eq, method?_flattened]
  cases table.method? owner key with
  | none => rfl
  | some method =>
      rw [Option.bind_some, Method.flattened?]
      split <;> rfl

/-- Members keep their names, if they have a target name. -/
theorem names?_flattened_member {path : Path} (member : path.above ≠ [])
    : (table.flattened labels).names? path
      = if path.kind = .parameter then none
        else (table.names? path).filter fun names => names.target.isSome := by
  cases path with
  | cls => exact absurd rfl member
  | field owner key =>
      rw [names?_field, names?_field, field?_flattened, if_neg (by simp)]
      cases table.field? owner key with
      | none => rfl
      | some field =>
          rw [Option.bind_some, Field.normal?, Option.map_some, Option.filter_some]
          split <;> rfl
  | method owner key =>
      rw [names?_method, names?_method, method?_flattened, if_neg (by simp)]
      cases table.method? owner key with
      | none => rfl
      | some method =>
          rw [Option.bind_some, Method.flattened?, Option.map_some, Option.filter_some]
          split <;> rfl
  | parameter owner key index =>
      rw [names?_parameter, parameter?_flattened]
      rfl

theorem names?_flattened_cls (owner : ClassName)
    : (table.flattened labels).names? (.cls owner)
      = ((table.class? owner).filter Class.isNamed).map Class.names := by
  rw [names?_cls, class?_flattened]
  cases table.class? owner with
  | none => rfl
  | some cls =>
      rw [Option.bind_some, Class.flattened?, Option.filter_some]
      split <;> rfl

theorem flattened_coherent (coherent : table.Coherent) : (table.flattened labels).Coherent := by
  have described : (table.flattened labels).Described := by
    constructor
    · intro owner key field found
      rw [field?_flattened, Option.bind_eq_some_iff] at found
      obtain ⟨was, stored, kept⟩ := found
      obtain ⟨_, same⟩ := Option.ite_none_right_eq_some.mp kept
      obtain rfl := Option.some.inj same
      exact (coherent.field stored).2
    · intro owner key method found
      rw [method?_flattened, Option.bind_eq_some_iff] at found
      obtain ⟨was, stored, kept⟩ := found
      obtain ⟨_, same⟩ := Option.ite_none_right_eq_some.mp kept
      obtain rfl := Option.some.inj same
      exact (coherent.method stored).2
    · intro owner key index parameter found
      rw [parameter?_flattened] at found
      simp at found
  apply described.coherent
  intro path names found
  cases path with
  | cls owner =>
      rw [names?_flattened_cls] at found
      obtain ⟨cls, kept, rfl⟩ := Option.map_eq_some_iff.mp found
      exact coherent.cls (Option.eq_some_of_filter_eq_some kept)
  | field | method =>
      rw [names?_flattened_member (by simp [Path.above]), if_neg (by simp)] at found
      exact coherent.names_fit (Option.eq_some_of_filter_eq_some found)
  | parameter => trivial

end Table

-----------------------------------------------------------------------------------------
-- Reading a written file
-----------------------------------------------------------------------------------------

namespace Flat

variable {table : Table 2} {arrangement : Arrangement} {labels : Labels 2}

/-- The table that a written file holds. -/
def reread (table : Table 2) (arrangement : Arrangement) (labels : Labels 2) : Table 2 :=
  (Table.empty labels).declareAll (written table arrangement)

/-- An entry has one line at most, so that is the last one. -/
theorem lastDeclared?_written_eq_some_iff (coherent : table.Coherent) {path : Path}
    {names : Names 2 path.kind}
    : lastDeclared? (written table arrangement) path = some names ↔ Kept table ⟨path, names⟩ := by
  constructor
  · intro last
    exact (mem_written_iff coherent).mp (mem_of_lastDeclared? last)
  · intro kept
    have listed : ⟨path, names⟩ ∈ written table arrangement :=
      (mem_written_iff coherent).mpr kept
    have declared := List.mem_map_of_mem (f := Declaration.path) listed
    obtain ⟨names', last⟩ := Option.ne_none_iff_exists'.mp
      (mt lastDeclared?_eq_none_iff.mp (not_not.mpr declared))
    have found := ((mem_written_iff coherent).mp (mem_of_lastDeclared? last)).2.1
    rw [last, ← found, kept.2.1]

/-- Lines lead through nothing but classes. -/
theorem names?_reread_member (coherent : table.Coherent) {path : Path} (member : path.above ≠ [])
    : (reread table arrangement labels).names? path
      = lastDeclared? (written table arrangement) path := by
  rw [reread, Table.names?_declareAll_eq_ite]
  cases last : lastDeclared? (written table arrangement) path with
  | some names =>
      rw [if_pos ⟨_, mem_of_lastDeclared? last, Path.reaches_self path⟩]
      rfl
  | none =>
      have undeclared := lastDeclared?_eq_none_iff.mp last
      rw [if_neg]
      intro given
      rcases given with ⟨⟨declared, names⟩, listed, rfl | above⟩
      · exact undeclared (List.mem_map.mpr ⟨_, listed, rfl⟩)
      · obtain ⟨no_parameter, _⟩ := (mem_written_iff coherent).mp listed
        cases declared with
        | cls => simp [Path.above] at above
        | field | method =>
            obtain rfl := List.mem_singleton.mp above
            exact member rfl
        | parameter => exact no_parameter rfl

/-- A line leads to a class if it is its own or that of a member. -/
theorem exists_reaches_cls_iff (coherent : table.Coherent) {owner : ClassName}
    : (∃ declaration ∈ written table arrangement, declaration.path.Reaches (.cls owner))
      ↔ ∃ cls, table.class? owner = some cls ∧ cls.isNamed = true := by
  simp only [mem_written_iff coherent, Class.isNamed_iff]
  constructor
  · intro given
    rcases given with ⟨⟨path, names⟩, ⟨no_parameter, found, named⟩, reaches⟩
    cases path with
    | cls other =>
        obtain ⟨cls, stored, rfl⟩ := Option.map_eq_some_iff.mp found
        obtain rfl : other = owner := by simpa [Path.Reaches, Path.above, eq_comm] using reaches
        exact ⟨cls, stored, Or.inl named⟩
    | field other key =>
        obtain ⟨field, stored, rfl⟩ := Option.map_eq_some_iff.mp found
        obtain ⟨cls, inside, listed⟩ := Option.bind_eq_some_iff.mp stored
        obtain rfl : other = owner := by simpa [Path.Reaches, Path.above, eq_comm] using reaches
        exact ⟨cls, inside, Or.inr (Or.inl ⟨key, field, listed, named⟩)⟩
    | method other key =>
        obtain ⟨method, stored, rfl⟩ := Option.map_eq_some_iff.mp found
        obtain ⟨cls, inside, listed⟩ := Option.bind_eq_some_iff.mp stored
        obtain rfl : other = owner := by simpa [Path.Reaches, Path.above, eq_comm] using reaches
        exact ⟨cls, inside, Or.inr (Or.inr ⟨key, method, listed, named⟩)⟩
    | parameter => exact absurd rfl no_parameter
  · intro given
    rcases given with ⟨cls, stored, named | ⟨key, field, listed, named⟩
      | ⟨key, method, listed, named⟩⟩
    · exact ⟨⟨.cls owner, cls.names⟩,
        ⟨by simp, Option.map_eq_some_iff.mpr ⟨cls, stored, rfl⟩, named⟩, Path.reaches_self _⟩
    · have found : table.field? owner key = some field :=
        Option.bind_eq_some_iff.mpr ⟨cls, stored, listed⟩
      exact ⟨⟨.field owner key, field.names⟩,
        ⟨by simp, Option.map_eq_some_iff.mpr ⟨field, found, rfl⟩, named⟩,
        Or.inr List.mem_cons_self⟩
    · have found : table.method? owner key = some method :=
        Option.bind_eq_some_iff.mpr ⟨cls, stored, listed⟩
      exact ⟨⟨.method owner key, method.names⟩,
        ⟨by simp, Option.map_eq_some_iff.mpr ⟨method, found, rfl⟩, named⟩,
        Or.inr List.mem_cons_self⟩

/-- The names of a class come back, whether its own line has them or its members make it. -/
theorem names?_reread_cls (coherent : table.Coherent) (owner : ClassName)
    : (reread table arrangement labels).names? (.cls owner)
      = ((table.class? owner).filter Class.isNamed).map Class.names := by
  rw [reread, Table.names?_declareAll_eq_ite]
  cases stored : table.class? owner with
  | none =>
      rw [if_neg]
      · rfl
      · intro reached
        obtain ⟨cls, found, _⟩ := (exists_reaches_cls_iff coherent).mp reached
        simp [stored] at found
  | some cls =>
      have found : table.names? (.cls owner) = some cls.names :=
        Option.map_eq_some_iff.mpr ⟨cls, stored, rfl⟩
      have names_eq : (lastDeclared? (written table arrangement) (.cls owner)).getD
          (Table.freshNames (.cls owner)) = cls.names := by
        cases last : lastDeclared? (written table arrangement) (.cls owner) with
        | some names =>
            have kept := (lastDeclared?_written_eq_some_iff coherent).mp last
            exact Option.some.inj (kept.2.1.symm.trans found)
        | none =>
            -- Without a line of its own, the class has only the name in its key.
            have unnamed : cls.names.target = none := by
              rw [← Option.not_isSome_iff_eq_none]
              intro named
              have kept : Kept table ⟨.cls owner, cls.names⟩ := ⟨by simp, found, named⟩
              rw [(lastDeclared?_written_eq_some_iff coherent).mpr kept] at last
              exact absurd last (by simp)
            apply Names.eq_of_first?_of_target
            · exact Path.first?_eq_of_fits (by simp) (Table.freshNames_fits (n := 2) (by decide) _)
                (coherent.cls stored)
            · rw [unnamed]
              exact Table.target_freshNames _
      rw [names_eq, Option.filter_some]
      by_cases named : cls.isNamed = true
      · rw [if_pos ((exists_reaches_cls_iff coherent).mpr ⟨cls, stored, named⟩), if_pos named]
        rfl
      · rw [if_neg, if_neg named]
        · rfl
        · intro reached
          obtain ⟨cls', stored', named'⟩ := (exists_reaches_cls_iff coherent).mp reached
          obtain rfl := Option.some.inj (stored.symm.trans stored')
          exact named named'

theorem reread_coherent (coherent : table.Coherent) (arrangement : Arrangement)
    (labels : Labels 2)
    : (reread table arrangement labels).Coherent := by
  apply Table.declareAll_coherent labels (by decide)
  intro declaration member
  exact coherent.names_fit ((mem_written_iff coherent).mp member).2.1

theorem labels_reread (table : Table 2) (arrangement : Arrangement) (labels : Labels 2)
    : (reread table arrangement labels).labels = labels :=
  Table.labels_declareAll labels _

/-- The names in the file are those that the table keeps. -/
theorem names?_reread (coherent : table.Coherent) (path : Path)
    : (reread table arrangement labels).names? path
      = (table.flattened labels).names? path := by
  by_cases member : path.above = []
  · cases path with
    | cls owner => rw [names?_reread_cls coherent, Table.names?_flattened_cls]
    | field | method | parameter => simp [Path.above] at member
  · rw [names?_reread_member coherent member, Table.names?_flattened_member member]
    apply Option.ext
    intro names
    rw [lastDeclared?_written_eq_some_iff coherent, Kept]
    by_cases parameter : path.kind = .parameter
    · simp [parameter]
    · simp [parameter, Option.filter_eq_some_iff]

/-- Only tables whose mapped members have descriptors are written. -/
theorem writeWith_eq_ok_iff {source target : String} {text : String}
    : Format.flat.writeWith table source target arrangement = .ok text
      ↔ table.checkDescriptors = .ok ()
        ∧ text = Row.renderAll (headerRow source target :: body table arrangement) :=
  Outcome.check_eq_ok_iff

/-- A written file is read as what the table has target names for, the order of entries aside. -/
theorem read_written_agrees_flattened (coherent : table.Coherent) (plain : table.Plain)
    {source target : String} (source_word : Text.IsWord source) (target_word : Text.IsWord target)
    {text : String} (writes : Format.flat.writeWith table source target arrangement = .ok text)
    : ∃ result, Format.flat.read 2 text.toUTF8 = .ok result
        ∧ result.agree (table.flattened ⟨#v[source, target]⟩) = true := by
  obtain ⟨checked, rfl⟩ := writeWith_eq_ok_iff.mp writes
  refine ⟨_, read_written coherent plain checked source_word target_word, ?_⟩
  apply (reread_coherent coherent arrangement _).agree_of_names? (Table.flattened_coherent coherent)
  · exact labels_reread table arrangement _
  · exact names?_reread coherent

/-- A class that only a field of it has a name for, and one whose method has none but that of a
parameter.
-/
def fieldNamed : Table 2 :=
  (Table.empty ⟨#v["obf", "named"]⟩).declareAll
    [⟨.cls ⟨"a"⟩, .pair (some ⟨"a"⟩) none⟩,
      ⟨.field ⟨"a"⟩ ⟨⟨"f"⟩, some ⟨"I"⟩⟩, .pair (some ⟨"f"⟩) (some ⟨"size"⟩)⟩,
      ⟨.field ⟨"a"⟩ ⟨⟨"g"⟩, none⟩, .pair (some ⟨"g"⟩) none⟩,
      ⟨.cls ⟨"b"⟩, .pair (some ⟨"b"⟩) (some ⟨"Box"⟩)⟩,
      ⟨.method ⟨"b"⟩ ⟨⟨"m"⟩, ⟨"(I)V"⟩⟩, .pair (some ⟨"m"⟩) none⟩,
      ⟨.parameter ⟨"b"⟩ ⟨⟨"m"⟩, ⟨"(I)V"⟩⟩ 1, .pair none (some ⟨"count"⟩)⟩]

theorem fieldNamed_coherent : fieldNamed.Coherent := by
  apply Table.declareAll_coherent _ (by decide)
  simp [Path.Fits, Names.first?, Names.pair]

theorem fieldNamed_plain : fieldNamed.Plain := by
  apply Table.declareAll_plain _ (by decide)
  · unfold OwnersDeclared
    decide
  · simp [Path.Fits, Names.first?, Names.pair]
  · decide
  · decide

theorem read_written_fieldNamed
    : ∃ text, Format.flat.writeWith fieldNamed "x" "y" .byName = .ok text
        ∧ text = "v1\tx\ty\nCLASS\tb\tBox\nFIELD\ta\tI\tf\tsize\n"
        ∧ ∃ result, Format.flat.read 2 text.toUTF8 = .ok result
            ∧ result.agree (fieldNamed.flattened ⟨#v["x", "y"]⟩) = true := by
  have writes : Format.flat.writeWith fieldNamed "x" "y" .byName
      = .ok "v1\tx\ty\nCLASS\tb\tBox\nFIELD\ta\tI\tf\tsize\n" :=
    writeWith_eq_ok_iff.mpr ⟨rfl, by decide +kernel⟩
  exact ⟨_, writes, rfl, read_written_agrees_flattened fieldNamed_coherent fieldNamed_plain
    (by decide) (by decide) writes⟩

end Flat

end NameTables
