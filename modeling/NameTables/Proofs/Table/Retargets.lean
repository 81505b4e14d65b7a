import NameTables.Proofs.Table.Coherence

/-! Runs that make entries and set target names.
Such a run is told in full by its paths and the targets on them: keys stand in the order of their
first use, and the last target on a path is the one that stays.
-/

namespace NameTables

namespace OrderedMap

variable {κ α : Type} [DecidableEq κ]

/-- The keys in the order of their first use, each with its value. -/
def ofKeys (keys : List κ) (value : κ → α) : OrderedMap κ α where
  entries := keys.eraseDups.map fun key => (key, value key)
  nodup := by simpa [Function.comp_def] using nodup_eraseDups keys

/-- Only the first uses of the keys count. -/
theorem ofKeys_congr {keys keys' : List κ} (same : keys.eraseDups = keys'.eraseDups)
    (value : κ → α)
    : ofKeys keys value = ofKeys keys' value := by
  apply ext
  exact congrArg (List.map fun key => (key, value key)) same

/-- A map is told by its keys and by the value under each. -/
theorem eq_ofKeys {m : OrderedMap κ α} {keys : List κ} {value : κ → α}
    (keys_eq : m.keys = keys.eraseDups)
    (values_eq : ∀ key a, m.get? key = some a → a = value key)
    : m = ofKeys keys value := by
  apply ext
  have repeats : m.entries.map (fun entry => (entry.1, value entry.1)) = m.entries.map id := by
    apply List.map_congr_left
    intro entry member
    rcases entry with ⟨key, a⟩
    have stored := (m.get?_eq_some_iff key a).mpr member
    simp [← values_eq key a stored]
  simp only [ofKeys, ← keys_eq, OrderedMap.keys, List.map_map, Function.comp_def]
  rw [repeats, List.map_id]

end OrderedMap

/-- If only one key tells anything, another one or none tells nothing. -/
theorem bind_eq_ite {κ β : Type} [DecidableEq κ] {told : κ → Option β} {key : κ}
    (apart : ∀ key', key' ≠ key → told key' = none) (key? : Option κ)
    : key?.bind told = if key? = some key then told key else none := by
  cases key? with
  | none => rfl
  | some key' =>
      by_cases same : key' = key
      · simp [same]
      · simp [same, apart key' same]

/-- An entry that is made unless it is there, and its new target name if there is one. -/
structure Retarget where
  path : Path
  target? : Option (Name path.kind)

namespace Retarget

/-- Without a new target name the old one stays. -/
def edit (retarget : Retarget) : Edit 2 :=
  ⟨retarget.path, fun names => names.setTarget (retarget.target?.or names.target)⟩

/-- The new target name at the end of `path`. -/
def targetAt? (retarget : Retarget) (path : Path) : Option (Name path.kind) :=
  if same : retarget.path = path then same ▸ retarget.target? else none

theorem targetAt?_self (path : Path) (target? : Option (Name path.kind))
    : (Retarget.mk path target?).targetAt? path = target? := by
  simp [targetAt?]

theorem targetAt?_of_ne {retarget : Retarget} {path : Path} (other : retarget.path ≠ path)
    : retarget.targetAt? path = none :=
  dif_neg other

/-- What falls on a key that may be another one, or none, counts only if it is the right one. -/
theorem bind_targetAt? {κ : Type} [DecidableEq κ] {path : κ → Path}
    (injective : Function.Injective path) (target? : ∀ key, Option (Name (path key).kind))
    (key? : Option κ) (key : κ)
    : (key?.bind fun key' => (Retarget.mk (path key') (target? key')).targetAt? (path key))
      = if key? = some key then target? key else none := by
  have apart (key' : κ) (other : key' ≠ key)
      : (Retarget.mk (path key') (target? key')).targetAt? (path key) = none :=
    targetAt?_of_ne fun paths_eq => other (injective paths_eq)
  rw [bind_eq_ite apart, targetAt?_self]

theorem edit_at (retarget : Retarget) (path : Path) (names : Names 2 path.kind)
    : retarget.edit.at path names
      = names.setTarget ((retarget.targetAt? path).or names.target) := by
  obtain ⟨changed, target?⟩ := retarget
  by_cases same : changed = path
  · subst same
    simp [Edit.at, edit, targetAt?]
  · simp [Edit.at, edit, targetAt?, same, Names.setTarget_target]

theorem edit_keepsKey (retarget : Retarget) : retarget.edit.KeepsKey := by
  obtain ⟨path, target?⟩ := retarget
  intro names fits
  cases path with
  | cls | field | method => exact (Names.first?_setTarget _ _).trans fits
  | parameter => trivial

end Retarget

/-- The last new target name at the end of `path`. -/
def lastTarget? (retargets : List Retarget) (path : Path) : Option (Name path.kind) :=
  (retargets.filterMap fun retarget => retarget.targetAt? path).getLast?

theorem lastTarget?_cons (retarget : Retarget) (rest : List Retarget) (path : Path)
    : lastTarget? (retarget :: rest) path
      = (lastTarget? rest path).or (retarget.targetAt? path) := by
  rw [lastTarget?, lastTarget?, List.filterMap_cons]
  cases retarget.targetAt? path with
  | none => rw [Option.or_none]
  | some name =>
      rw [List.getLast?_cons]
      cases (rest.filterMap fun retarget => retarget.targetAt? path).getLast? <;> rfl

theorem mem_of_lastTarget? {retargets : List Retarget} {path : Path} {name : Name path.kind}
    (last : lastTarget? retargets path = some name)
    : ⟨path, some name⟩ ∈ retargets := by
  obtain ⟨⟨changed, target?⟩, member, at_path⟩ :=
    List.mem_filterMap.mp (List.mem_of_getLast? last)
  by_cases same : changed = path
  · subst same
    rw [Retarget.targetAt?_self] at at_path
    exact at_path ▸ member
  · rw [Retarget.targetAt?_of_ne same] at at_path
    exact absurd at_path (by simp)

/-- The only target name at a path is the last one. -/
theorem lastTarget?_eq_some {retargets : List Retarget} {path : Path} {name : Name path.kind}
    (member : ⟨path, some name⟩ ∈ retargets)
    (only : ∀ other, ⟨path, some other⟩ ∈ retargets → other = name)
    : lastTarget? retargets path = some name := by
  have there : name ∈ retargets.filterMap fun retarget => retarget.targetAt? path :=
    List.mem_filterMap.mpr ⟨_, member, Retarget.targetAt?_self path (some name)⟩
  obtain ⟨other, last⟩ := List.getLast?_isSome.mpr (List.ne_nil_of_mem there)
    |> Option.isSome_iff_exists.mp
  rw [lastTarget?, last, only other (mem_of_lastTarget? last)]

/-- The last target name decides, by induction on the run. -/
theorem foldl_retarget_at (retargets : List Retarget) (path : Path) (names : Names 2 path.kind)
    : (retargets.map Retarget.edit).foldl (fun names edit => edit.at path names) names
      = names.setTarget ((lastTarget? retargets path).or names.target) := by
  induction retargets generalizing names with
  | nil => exact (Names.setTarget_target names).symm
  | cons retarget rest ih =>
      rw [List.map_cons, List.foldl_cons, ih, Retarget.edit_at, Names.setTarget_setTarget,
        Names.target_setTarget, lastTarget?_cons, Option.or_assoc]

-----------------------------------------------------------------------------------------
-- The table that a run makes
-----------------------------------------------------------------------------------------

namespace Table

variable (labels : Labels 2) (retargets : List Retarget)

/-- The table that is made by a run. -/
def retargeted : Table 2 := (Table.empty labels).applyAll (retargets.map Retarget.edit)

theorem target_freshNames (path : Path) : (freshNames path : Names 2 path.kind).target = none := by
  cases path <;> rfl

/-- An entry has the last target name, and no other name than the one in its key. -/
theorem names?_retargeted {path : Path} {names : Names 2 path.kind}
    (found : (retargeted labels retargets).names? path = some names)
    : names = (freshNames path : Names 2 path.kind).setTarget (lastTarget? retargets path) := by
  have start : (Table.empty labels).names? path = none := by cases path <;> rfl
  rw [retargeted, names?_applyAll, start] at found
  split at found
  · rw [Option.getD_none, foldl_retarget_at, target_freshNames, Option.or_none,
      Option.some.injEq] at found
    exact found.symm
  · simp at found

/-- Every path of the run is made. -/
theorem names?_retargeted_of_mem {retarget : Retarget} (member : retarget ∈ retargets)
    : (retargeted labels retargets).names? retarget.path
      = some ((freshNames retarget.path : Names 2 retarget.path.kind).setTarget
          (lastTarget? retargets retarget.path)) := by
  have reached : ∃ edit ∈ retargets.map Retarget.edit, edit.path.Reaches retarget.path :=
    ⟨retarget.edit, List.mem_map_of_mem member, retarget.path.reaches_self⟩
  have found := names?_applyAll (Table.empty labels) (retargets.map Retarget.edit) retarget.path
  rw [if_pos reached] at found
  rw [← names?_retargeted labels retargets found]
  exact found

theorem retargeted_coherent : (retargeted labels retargets).Coherent := by
  apply (empty_coherent labels).applyAll (by decide)
  intro edit member
  obtain ⟨retarget, _, rfl⟩ := List.mem_map.mp member
  exact retarget.edit_keepsKey

theorem retargeted_described : (retargeted labels retargets).Described :=
  (retargeted_coherent labels retargets).described

/-- What the run makes under a key of a field. -/
def retargetedField (owner : ClassName) (key : FieldKey) : Field 2 :=
  ⟨key.descriptor, .pair (some key.name) (lastTarget? retargets (.field owner key))⟩

def retargetedMethod (owner : ClassName) (key : MethodKey) : Method 2 :=
  ⟨key.descriptor, .pair (some key.name) (lastTarget? retargets (.method owner key)), .empty⟩

def retargetedClass (owner : ClassName) : Class 2 where
  names := .pair (some owner) (lastTarget? retargets (.cls owner))
  fields := .ofKeys (retargets.filterMap fun retarget => retarget.path.fieldKey? owner)
    (retargetedField retargets owner)
  methods := .ofKeys (retargets.filterMap fun retarget => retarget.path.methodKey? owner)
    (retargetedMethod retargets owner)

theorem field?_retargeted {owner : ClassName} {key : FieldKey} {field : Field 2}
    (found : (retargeted labels retargets).field? owner key = some field)
    : field = retargetedField retargets owner key := by
  have at_path : (retargeted labels retargets).names? (.field owner key) = some field.names := by
    rw [names?_field, found]
    rfl
  have names_eq := names?_retargeted labels retargets at_path
  have descriptor_eq := (retargeted_described labels retargets).field found
  obtain ⟨descriptor, names⟩ := field
  subst names_eq descriptor_eq
  rfl

/-- A run that leads to no parameters makes none. -/
theorem parameters_retargeted
    (no_parameters : ∀ retarget ∈ retargets, retarget.path.kind ≠ .parameter)
    (owner : ClassName) (key : MethodKey)
    : (retargeted labels retargets).parametersOf owner key = .empty := by
  have unused : retargets.filterMap (fun retarget => retarget.path.index? owner key) = [] := by
    rw [List.filterMap_eq_nil_iff]
    intro retarget member
    have not_parameter := no_parameters retarget member
    cases on_path : retarget.path with
    | cls | field | method => rfl
    | parameter => simp [on_path, Path.kind] at not_parameter
  have keys_eq := parameterIndices_applyAll (Table.empty labels) (retargets.map Retarget.edit)
    owner key
  rw [List.filterMap_map] at keys_eq
  apply OrderedMap.ext
  apply List.map_eq_nil_iff.mp
  exact keys_eq.trans (congrArg List.eraseDups unused)

theorem method?_retargeted
    (no_parameters : ∀ retarget ∈ retargets, retarget.path.kind ≠ .parameter)
    {owner : ClassName} {key : MethodKey} {method : Method 2}
    (found : (retargeted labels retargets).method? owner key = some method)
    : method = retargetedMethod retargets owner key := by
  have at_path : (retargeted labels retargets).names? (.method owner key) = some method.names := by
    rw [names?_method, found]
    rfl
  have names_eq := names?_retargeted labels retargets at_path
  have descriptor_eq := (retargeted_described labels retargets).method found
  have parameters_eq := parameters_retargeted labels retargets no_parameters owner key
  rw [parametersOf_of_method? found] at parameters_eq
  obtain ⟨descriptor, names, parameters⟩ := method
  subst names_eq descriptor_eq parameters_eq
  rfl

theorem class?_retargeted
    (no_parameters : ∀ retarget ∈ retargets, retarget.path.kind ≠ .parameter)
    {owner : ClassName} {cls : Class 2}
    (found : (retargeted labels retargets).class? owner = some cls)
    : cls = retargetedClass retargets owner := by
  have at_path : (retargeted labels retargets).names? (.cls owner) = some cls.names := by
    rw [names?_cls, found]
    rfl
  have names_eq := names?_retargeted labels retargets at_path
  have fields_eq : cls.fields = (retargetedClass retargets owner).fields := by
    apply OrderedMap.eq_ofKeys
    · have keys_eq := fieldKeys_applyAll (Table.empty labels) (retargets.map Retarget.edit) owner
      rw [← retargeted, fieldsOf_of_class? found, List.filterMap_map] at keys_eq
      exact keys_eq
    · intro key field stored
      apply field?_retargeted labels retargets
      rw [field?, found]
      exact stored
  have methods_eq : cls.methods = (retargetedClass retargets owner).methods := by
    apply OrderedMap.eq_ofKeys
    · have keys_eq := methodKeys_applyAll (Table.empty labels) (retargets.map Retarget.edit) owner
      rw [← retargeted, methodsOf_of_class? found, List.filterMap_map] at keys_eq
      exact keys_eq
    · intro key method stored
      apply method?_retargeted labels retargets no_parameters
      rw [method?, found]
      exact stored
  obtain ⟨names, fields, methods⟩ := cls
  subst names_eq fields_eq methods_eq
  rfl

/-- The paths and the targets of a run say what it makes, and in which order. -/
theorem retargeted_eq
    (no_parameters : ∀ retarget ∈ retargets, retarget.path.kind ≠ .parameter)
    : retargeted labels retargets
      = ⟨labels, .ofKeys (retargets.map fun retarget => retarget.path.owner)
          (retargetedClass retargets)⟩ := by
  have labels_eq : (retargeted labels retargets).labels = labels := labels_applyAll ..
  have classes_eq : (retargeted labels retargets).classes
      = .ofKeys (retargets.map fun retarget => retarget.path.owner)
          (retargetedClass retargets) := by
    apply OrderedMap.eq_ofKeys
    · have keys_eq := classKeys_applyAll (Table.empty labels) (retargets.map Retarget.edit)
      rw [List.map_map] at keys_eq
      exact keys_eq
    · intro owner cls found
      exact class?_retargeted labels retargets no_parameters found
  cases table : retargeted labels retargets
  rw [table] at labels_eq classes_eq
  rw [← labels_eq, ← classes_eq]

end Table

end NameTables
