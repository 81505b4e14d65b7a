import NameTables.Proofs.Table.EditRuns

/-! Coherent tables.
In a coherent table every entry repeats what its key is made of. The content of such a table is told
by the names at the ends of its paths, which is what agreement regardless of order compares.
-/

namespace NameTables

variable {n : Nat}

/-- Every class, field, method and parameter is stored under the key made of its own first name,
descriptor and index.
-/
structure Table.Coherent (table : Table n) : Prop where
  cls
    : ∀ {owner : ClassName} {cls : Class n},
        table.class? owner = some cls → cls.names.first? = some owner
  field
    : ∀ {owner : ClassName} {key : FieldKey} {field : Field n},
        table.field? owner key = some field
        → field.names.first? = some key.name ∧ field.descriptor = key.descriptor
  method
    : ∀ {owner : ClassName} {key : MethodKey} {method : Method n},
        table.method? owner key = some method
        → method.names.first? = some key.name ∧ method.descriptor = key.descriptor
  parameter
    : ∀ {owner : ClassName} {key : MethodKey} {index : UInt64} {parameter : Parameter n},
        table.parameter? owner key index = some parameter → parameter.index = index

namespace Names

variable {kind : Kind}

theorem source_eq_first? (names : Names 2 kind) : names.source = names.first? :=
  (names.first?_eq_get (by decide)).symm

theorem setTarget_target (names : Names 2 kind) : names.setTarget names.target = names := by
  apply ext_get
  intro i
  by_cases target : i = 1
  · subst target
    exact get_set_self names 1 _
  · exact get_set_of_ne names (Ne.symm target) _

theorem setTarget_setTarget (names : Names 2 kind) (name name' : Option (Name kind))
    : (names.setTarget name).setTarget name' = names.setTarget name' := by
  simp [setTarget, set]

@[simp]
theorem target_setTarget (names : Names 2 kind) (name : Option (Name kind))
    : (names.setTarget name).target = name :=
  get_set_self names 1 name

theorem first?_setTarget (names : Names 2 kind) (target : Option (Name kind))
    : (names.setTarget target).first? = names.first? := by
  rw [← source_eq_first?, ← source_eq_first?]
  exact get_set_of_ne names (by decide) target

/-- The first name and the target are all there is. -/
theorem eq_of_first?_of_target {names names' : Names 2 kind}
    (first_eq : names.first? = names'.first?) (target_eq : names.target = names'.target)
    : names = names' := by
  rw [← source_eq_first?, ← source_eq_first?] at first_eq
  apply ext_get
  intro i
  match i with
  | 0 => exact first_eq
  | 1 => exact target_eq

/-- There are no names but the first one and the target. -/
theorem setTarget_eq_pair {names : Names 2 kind} {source : Name kind}
    (first : names.first? = some source) (target : Option (Name kind))
    : names.setTarget target = pair (some source) target := by
  apply ext_get
  intro i
  match i with
  | 0 =>
      rw [← source_eq_first?] at first
      exact (get_set_of_ne names (by decide) target).trans first
  | 1 => exact get_set_self names 1 target

theorem eq_or_eq_of_get_pair {source target : Option (Name kind)} {i : Fin 2} {name : Name kind}
    (found : (pair source target).get i = some name)
    : source = some name ∨ target = some name := by
  match i with
  | 0 => exact Or.inl found
  | 1 => exact Or.inr found

end Names

-----------------------------------------------------------------------------------------
-- Coherence after a run of edits
-----------------------------------------------------------------------------------------

/-- The names repeat the name in the last key of the path. -/
def Path.Fits : (path : Path) → Names n path.kind → Prop
  | .cls owner, names => names.first? = some owner
  | .field _ key, names => names.first? = some key.name
  | .method _ key, names => names.first? = some key.name
  | .parameter _ _ _, _ => True

/-- The first name is the one in the key. -/
theorem Path.first?_eq_of_fits {m : Nat} {path : Path} (no_parameter : path.kind ≠ .parameter)
    {names : Names m path.kind} {names' : Names n path.kind} (fits : path.Fits names)
    (fits' : path.Fits names')
    : names.first? = names'.first? := by
  cases path with
  | cls | field | method => exact fits.trans fits'.symm
  | parameter => exact absurd rfl no_parameter

/-- The edit keeps the name in the last key of its path. -/
def Edit.KeepsKey (edit : Edit n) : Prop :=
  ∀ names, edit.path.Fits names → edit.path.Fits (edit.change names)

namespace Table

theorem empty_coherent (labels : Labels n) : (Table.empty labels).Coherent := by
  have none_there (owner : ClassName) : (Table.empty labels).class? owner = none := rfl
  constructor <;> simp [field?, method?, parameter?, none_there]

theorem freshNames_fits (positive : 0 < n) (path : Path)
    : path.Fits (freshNames path : Names n path.kind) := by
  cases path <;> simp [Path.Fits, freshNames, positive]

/-- The names at the end of a path repeat its key. -/
theorem Coherent.names_fit {table : Table n} (coherent : table.Coherent) {path : Path}
    {names : Names n path.kind} (found : table.names? path = some names)
    : path.Fits names := by
  cases path with
  | cls owner =>
      obtain ⟨cls, stored, rfl⟩ := Option.map_eq_some_iff.mp found
      exact coherent.cls stored
  | field owner key =>
      obtain ⟨field, stored, rfl⟩ := Option.map_eq_some_iff.mp found
      exact (coherent.field stored).1
  | method owner key =>
      obtain ⟨method, stored, rfl⟩ := Option.map_eq_some_iff.mp found
      exact (coherent.method stored).1
  | parameter => trivial

/-- Descriptors and indices repeat the keys. They never change, so they have no part in what
edits must keep.
-/
structure Described (table : Table n) : Prop where
  field
    : ∀ {owner : ClassName} {key : FieldKey} {field : Field n},
        table.field? owner key = some field → field.descriptor = key.descriptor
  method
    : ∀ {owner : ClassName} {key : MethodKey} {method : Method n},
        table.method? owner key = some method → method.descriptor = key.descriptor
  parameter
    : ∀ {owner : ClassName} {key : MethodKey} {index : UInt64} {parameter : Parameter n},
        table.parameter? owner key index = some parameter → parameter.index = index

theorem Coherent.described {table : Table n} (coherent : table.Coherent)
    : table.Described where
  field found := (coherent.field found).2
  method found := (coherent.method found).2
  parameter found := coherent.parameter found

/-- A described table whose names repeat their keys is coherent. -/
theorem Described.coherent {table : Table n} (described : table.Described)
    (fit : ∀ path names, table.names? path = some names → path.Fits names)
    : table.Coherent where
  cls {owner cls} found := fit (.cls owner) cls.names (by simp [names?, found])
  field {owner key field} found :=
    ⟨fit (.field owner key) field.names (by simp [names?, found]), described.field found⟩
  method {owner key method} found :=
    ⟨fit (.method owner key) method.names (by simp [names?, found]), described.method found⟩
  parameter found := described.parameter found

theorem Described.update {table : Table n} (described : table.Described) (path : Path)
    (change : Names n path.kind → Names n path.kind)
    : (table.update path change).Described := by
  have fieldKept (owner : ClassName) (key : FieldKey)
      : ((table.field? owner key).getD (.keyed key)).descriptor = key.descriptor := by
    cases found : table.field? owner key with
    | none => rfl
    | some field => exact described.field found
  have methodKept (owner : ClassName) (key : MethodKey)
      : ((table.method? owner key).getD (.keyed key)).descriptor = key.descriptor := by
    cases found : table.method? owner key with
    | none => rfl
    | some method => exact described.method found
  have indexKept (owner : ClassName) (key : MethodKey) (index : UInt64)
      : ((table.parameter? owner key index).getD (.keyed index)).index = index := by
    cases found : table.parameter? owner key index with
    | none => rfl
    | some parameter => exact described.parameter found
  cases path with
  | cls changed =>
      constructor
      · intro owner key field found
        exact described.field (field?_update_cls .. ▸ found)
      · intro owner key method found
        exact described.method (method?_update_cls .. ▸ found)
      · intro owner key index parameter found
        rw [parameter?, method?_update_cls] at found
        exact described.parameter found
  | field changed changedKey =>
      constructor
      · intro owner key field found
        rw [Table.update, field?_updateField] at found
        split at found
        · next same =>
          obtain rfl := Option.some.inj found
          exact same.2 ▸ fieldKept changed changedKey
        · exact described.field found
      · intro owner key method found
        exact described.method (method?_updateField .. ▸ found)
      · intro owner key index parameter found
        rw [parameter?, Table.update, method?_updateField] at found
        exact described.parameter found
  | method changed changedKey =>
      constructor
      · intro owner key field found
        exact described.field (field?_updateMethod .. ▸ found)
      · intro owner key method found
        rw [Table.update, method?_updateMethod] at found
        split at found
        · next same =>
          obtain rfl := Option.some.inj found
          exact same.2 ▸ methodKept changed changedKey
        · exact described.method found
      · intro owner key index parameter found
        rw [parameter?_update_method] at found
        exact described.parameter found
  | parameter changed changedKey changedIndex =>
      constructor
      · intro owner key field found
        exact described.field (field?_updateMethod .. ▸ found)
      · intro owner key method found
        rw [Table.update, updateParameter, method?_updateMethod] at found
        split at found
        · next same =>
          obtain rfl := Option.some.inj found
          exact same.2 ▸ methodKept changed changedKey
        · exact described.method found
      · intro owner key index parameter found
        rw [Table.update, parameter?_updateParameter] at found
        split at found
        · next same =>
          obtain rfl := Option.some.inj found
          exact same.2.2 ▸ indexKept changed changedKey changedIndex
        · exact described.parameter found

/-- An edit that keeps the name in its key keeps a table coherent. -/
theorem Coherent.update {table : Table n} (coherent : table.Coherent) (positive : 0 < n)
    {edit : Edit n} (keeps : edit.KeepsKey)
    : (table.update edit.path edit.change).Coherent := by
  apply (coherent.described.update edit.path edit.change).coherent
  intro path names found
  have old : path.Fits ((table.names? path).getD (freshNames path)) := by
    cases h : table.names? path with
    | none => exact freshNames_fits positive path
    | some names => exact coherent.names_fit h
  rw [names?_update] at found
  split at found
  · obtain rfl := Option.some.inj found
    by_cases same : edit.path = path
    · subst same
      rw [show edit.at edit.path = edit.change from Edit.at_self edit.path edit.change]
      exact keeps _ old
    · rw [Edit.at_of_ne same]
      exact old
  · exact coherent.names_fit found

/-- A run of such edits keeps a table coherent, by induction on the edits. -/
theorem Coherent.applyAll {table : Table n} (coherent : table.Coherent) (positive : 0 < n)
    {edits : List (Edit n)} (keep : ∀ edit ∈ edits, edit.KeepsKey)
    : (table.applyAll edits).Coherent := by
  induction edits generalizing table with
  | nil => exact coherent
  | cons edit edits ih =>
      have next := coherent.update positive (keep edit List.mem_cons_self)
      exact ih next fun edit member => keep edit (List.mem_cons_of_mem _ member)

end Table

-----------------------------------------------------------------------------------------
-- Agreement regardless of order
-----------------------------------------------------------------------------------------

namespace OrderedMap

variable {κ α : Type} [DecidableEq κ]

theorem get?_eq_none_iff (m : OrderedMap κ α) (key : κ) : m.get? key = none ↔ key ∉ m.keys := by
  rw [← get?_isSome_iff, Option.isSome_iff_ne_none, Classical.not_not]

/-- Maps agree when they have the same keys and the values under each key do. The sizes are
compared instead of the keys of the second map, so a key that only that one has must be counted.
-/
theorem agree_iff {same : α → α → Bool} {m m' : OrderedMap κ α}
    : m.agree same m' = true
      ↔ (∀ key, key ∈ m.keys ↔ key ∈ m'.keys)
        ∧ ∀ key a a', m.get? key = some a → m'.get? key = some a' → same a a' = true := by
  have sizes : m.size = m.keys.length ∧ m'.size = m'.keys.length := by simp [size, keys]
  simp only [agree, Bool.and_eq_true, beq_iff_eq, sizes, List.all_eq_true]
  constructor
  · intro given
    rcases given with ⟨length_eq, agreeing⟩
    have found : ∀ key a, m.get? key = some a → ∃ a', m'.get? key = some a' ∧ same a a' := by
      intro key a stored
      have := agreeing (key, a) ((m.get?_eq_some_iff key a).mp stored)
      simpa [Option.any_eq_true] using this
    have subset : m.keys ⊆ m'.keys := by
      intro key member
      obtain ⟨a, stored⟩ := Option.isSome_iff_exists.mp ((m.get?_isSome_iff key).mpr member)
      obtain ⟨a', stored', _⟩ := found key a stored
      exact (m'.get?_isSome_iff key).mp (by simp [stored'])
    refine ⟨fun key => ⟨fun member => subset member, fun member => ?_⟩, ?_⟩
    · apply Classical.byContradiction
      intro absent
      have nodup : (key :: m.keys).Nodup := List.nodup_cons.mpr ⟨absent, m.keys_nodup⟩
      have fits := nodup.length_le_of_subset (List.cons_subset.mpr ⟨member, subset⟩)
      simp only [List.length_cons] at fits
      omega
    · intro key a a' stored stored'
      obtain ⟨b, stored_b, good⟩ := found key a stored
      obtain rfl := Option.some.inj (stored'.symm.trans stored_b)
      exact good
  · intro given
    rcases given with ⟨keys_iff, agreeing⟩
    refine ⟨?_, ?_⟩
    · exact ((List.perm_ext_iff_of_nodup m.keys_nodup m'.keys_nodup).mpr keys_iff).length_eq
    · intro entry member
      rcases entry with ⟨key, a⟩
      have stored := (m.get?_eq_some_iff key a).mpr member
      have present := (keys_iff key).mp ((m.get?_isSome_iff key).mp (by simp [stored]))
      obtain ⟨a', stored'⟩ := Option.isSome_iff_exists.mp ((m'.get?_isSome_iff key).mpr present)
      simpa [stored'] using agreeing key a a' stored stored'

/-- Maps with decidable values agree when every lookup does. -/
theorem agree_beq_iff [DecidableEq α] {m m' : OrderedMap κ α}
    : m.agree (· == ·) m' = true ↔ ∀ key, m.get? key = m'.get? key := by
  rw [agree_iff]
  constructor
  · intro given key
    rcases given with ⟨keys_iff, agreeing⟩
    cases stored : m.get? key with
    | none =>
        have absent := (m.get?_eq_none_iff key).mp stored
        exact ((m'.get?_eq_none_iff key).mpr (mt (keys_iff key).mpr absent)).symm
    | some a =>
        have present := (keys_iff key).mp ((m.get?_isSome_iff key).mp (by simp [stored]))
        obtain ⟨a', stored'⟩ :=
          Option.isSome_iff_exists.mp ((m'.get?_isSome_iff key).mpr present)
        rw [stored', eq_of_beq (agreeing key a a' stored stored')]
  · intro same
    refine ⟨fun key => ?_, fun key a a' stored stored' => ?_⟩
    · rw [← get?_isSome_iff, ← get?_isSome_iff, same]
    · rw [same, stored'] at stored
      simp [Option.some.inj stored]

end OrderedMap

namespace Table

theorem names?_cls (table : Table n) (owner : ClassName)
    : table.names? (.cls owner) = (table.class? owner).map Class.names := rfl

theorem names?_field (table : Table n) (owner : ClassName) (key : FieldKey)
    : table.names? (.field owner key) = (table.field? owner key).map Field.names := rfl

theorem names?_method (table : Table n) (owner : ClassName) (key : MethodKey)
    : table.names? (.method owner key) = (table.method? owner key).map Method.names := rfl

theorem names?_parameter (table : Table n) (owner : ClassName) (key : MethodKey)
    (index : UInt64)
    : table.names? (.parameter owner key index)
      = (table.parameter? owner key index).map Parameter.names := rfl

/-- What is there is the same when it looks the same, if looks tell apart what is there. -/
theorem eq_of_map_eq {α β : Type} {look : α → β} {a? b? : Option α}
    (same : a?.map look = b?.map look)
    (apart : ∀ a b, a? = some a → b? = some b → look a = look b → a = b)
    : a? = b? := by
  cases a? with
  | none => exact (Option.map_eq_none_iff.mp same.symm).symm
  | some a =>
      obtain ⟨b, found, looks_eq⟩ := Option.map_eq_some_iff.mp same.symm
      rw [found, apart a b rfl found looks_eq.symm]

/-- What stands under a path is determined by the names there. -/
theorem Described.field?_eq {table table' : Table n} (described : table.Described)
    (described' : table'.Described) {owner : ClassName} {key : FieldKey}
    (same : table.names? (.field owner key) = table'.names? (.field owner key))
    : table.field? owner key = table'.field? owner key := by
  apply eq_of_map_eq same
  intro field field' found found' names_eq
  have descriptor_eq := (described.field found).trans (described'.field found').symm
  cases field
  cases field'
  simp_all

theorem Described.parameter?_eq {table table' : Table n} (described : table.Described)
    (described' : table'.Described) {owner : ClassName} {key : MethodKey} {index : UInt64}
    (same : table.names? (.parameter owner key index) = table'.names? (.parameter owner key index))
    : table.parameter? owner key index = table'.parameter? owner key index := by
  apply eq_of_map_eq same
  intro parameter parameter' found found' names_eq
  have index_eq := (described.parameter found).trans (described'.parameter found').symm
  cases parameter
  cases parameter'
  simp_all

/-- Coherent tables agree when they have the same labels and the same names at every path. -/
theorem Coherent.agree_of_names? {table table' : Table n} (coherent : table.Coherent)
    (coherent' : table'.Coherent) (labels_eq : table.labels = table'.labels)
    (names_eq : ∀ path, table.names? path = table'.names? path)
    : table.agree table' = true := by
  have described := coherent.described
  have described' := coherent'.described
  rw [agree, Bool.and_eq_true, beq_iff_eq, OrderedMap.agree_iff]
  refine ⟨labels_eq, fun owner => ?_, fun owner cls cls' found found' => ?_⟩
  · have same := names_eq (.cls owner)
    rw [names?_cls, names?_cls, class?, class?] at same
    rw [← OrderedMap.get?_isSome_iff, ← OrderedMap.get?_isSome_iff,
      ← Option.isSome_map (f := Class.names), same, Option.isSome_map]
  have class_found : table.class? owner = some cls := found
  have class_found' : table'.class? owner = some cls' := found'
  rw [Class.agree, Bool.and_eq_true, Bool.and_eq_true, beq_iff_eq, OrderedMap.agree_beq_iff,
    OrderedMap.agree_iff]
  refine ⟨⟨?_, fun key => ?_⟩, fun key => ?_, fun key method method' stored stored' => ?_⟩
  · simpa [names?_cls, class_found, class_found'] using names_eq (.cls owner)
  · simpa [field?, class_found, class_found']
      using described.field?_eq described' (names_eq (.field owner key))
  · have same := names_eq (.method owner key)
    simp only [names?_method, method?, class_found, class_found', Option.bind_eq_bind,
      Option.bind_some] at same
    rw [← OrderedMap.get?_isSome_iff, ← OrderedMap.get?_isSome_iff,
      ← Option.isSome_map (f := Method.names), same, Option.isSome_map]
  have method_found : table.method? owner key = some method := by
    simpa [method?, class_found] using stored
  have method_found' : table'.method? owner key = some method' := by
    simpa [method?, class_found'] using stored'
  have descriptor_eq :=
    (described.method method_found).trans (described'.method method_found').symm
  have method_names_eq : method.names = method'.names := by
    simpa [names?_method, method_found, method_found'] using names_eq (.method owner key)
  rw [Method.agree, Bool.and_eq_true, Bool.and_eq_true, beq_iff_eq, beq_iff_eq,
    OrderedMap.agree_beq_iff]
  refine ⟨⟨descriptor_eq, method_names_eq⟩, fun index => ?_⟩
  simpa [parameter?, method_found, method_found']
    using described.parameter?_eq described' (names_eq (.parameter owner key index))

end Table

end NameTables
