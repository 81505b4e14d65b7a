import NameTables.Table.Lookup

/-! What a run of edits leaves in a table.
The keys of every owner stand in the order of their first use, and the names at the end of a path
come from the changes on that path alone.
-/

namespace NameTables

variable {n : Nat}

namespace OrderedMap

variable {κ : Type} [DecidableEq κ]

/-- Nothing is dropped from a list without repetitions, by list induction. -/
theorem eraseDups_of_nodup {keys : List κ} (nodup : keys.Nodup) : keys.eraseDups = keys := by
  induction keys with
  | nil => rfl
  | cons key rest ih =>
      obtain ⟨fresh, nodup⟩ := List.nodup_cons.mp nodup
      have kept : rest.filter (fun other => !other == key) = rest := by
        rw [List.filter_eq_self]
        intro other member
        have different : other ≠ key := fun same => fresh (same ▸ member)
        simpa using different
      rw [List.eraseDups_cons, kept, ih nodup]

/-- First occurrences are pairwise different, by induction on the length. -/
theorem nodup_eraseDups (keys : List κ) : keys.eraseDups.Nodup := by
  match keys with
  | [] => simp
  | key :: rest =>
      rw [List.eraseDups_cons, List.nodup_cons]
      exact ⟨by simp, nodup_eraseDups _⟩
termination_by keys.length
decreasing_by
  have := List.length_filter_le (fun other => !other == key) rest
  simp only [List.length_cons]
  omega

/-- Repetitions may be dropped from the front before the rest is added. -/
theorem eraseDups_eraseDups_append (keys more : List κ)
    : (keys.eraseDups ++ more).eraseDups = (keys ++ more).eraseDups := by
  have same : more.removeAll keys.eraseDups = more.removeAll keys := by
    simp [List.removeAll]
  rw [List.eraseDups_append, List.eraseDups_append, eraseDups_of_nodup (nodup_eraseDups keys),
    same]

/-- Keys that came before add nothing. -/
theorem eraseDups_append_of_subset {keys more : List κ} (old : more ⊆ keys)
    : (keys ++ more).eraseDups = keys.eraseDups := by
  have none_new : more.removeAll keys = [] := by
    simpa [List.removeAll] using fun key member => old member
  rw [List.eraseDups_append, none_new, List.eraseDups_nil, List.append_nil]

/-- Keys that repeat the one in front of them add nothing, by list induction behind any keys that
came before.
-/
theorem eraseDups_flatMap {α : Type} {items : List α} {key? : α → Option κ} {visit : α → List κ}
    (repeats
      : ∀ a ∈ items, ∃ more, visit a = (key? a).toList ++ more ∧ more ⊆ (key? a).toList)
    : (items.flatMap visit).eraseDups = (items.filterMap key?).eraseDups := by
  have behind (front : List κ)
      : (front ++ items.flatMap visit).eraseDups = (front ++ items.filterMap key?).eraseDups := by
    induction items generalizing front with
    | nil => rfl
    | cons a items ih =>
        obtain ⟨more, visited, old⟩ := repeats a List.mem_cons_self
        have rest := ih (fun a member => repeats a (List.mem_cons_of_mem _ member))
          (front ++ (key? a).toList)
        have dropped : (front ++ visit a).eraseDups = (front ++ (key? a).toList).eraseDups := by
          rw [visited, ← List.append_assoc]
          apply eraseDups_append_of_subset
          exact List.Subset.trans old (List.subset_append_right ..)
        have split : (a :: items).filterMap key? = (key? a).toList ++ items.filterMap key? := by
          cases found : key? a <;> simp [found]
        rw [List.flatMap_cons, ← List.append_assoc, ← eraseDups_eraseDups_append, dropped,
          eraseDups_eraseDups_append, rest, List.append_assoc, split]
  exact behind []

theorem keys_upsert_eq_eraseDups {α : Type} (m : OrderedMap κ α) (key : κ) (fresh : α)
    (change : α → α)
    : (m.upsert key fresh change).keys = (m.keys ++ [key]).eraseDups := by
  rw [keys_upsert, List.eraseDups_append, eraseDups_of_nodup m.keys_nodup]
  split
  · next present => simp [List.removeAll, present]
  · next absent => simp [List.removeAll, absent, List.eraseDups_cons]

end OrderedMap

namespace Path

/-- The class that a path leads to or through. -/
def owner : Path → ClassName
  | .cls owner => owner
  | .field owner _ => owner
  | .method owner _ => owner
  | .parameter owner _ _ => owner

/-- The name that an entry goes by in its key. Parameters have none there. -/
def own? : (path : Path) → Option (Name path.kind)
  | .cls owner => some owner
  | .field _ key => some key.name
  | .method _ key => some key.name
  | .parameter _ _ _ => none

/-- The field of `owner` that a path leads to. -/
def fieldKey? (owner : ClassName) : Path → Option FieldKey
  | .field other key => if other = owner then some key else none
  | _ => none

/-- The method of `owner` that a path leads to or through. -/
def methodKey? (owner : ClassName) : Path → Option MethodKey
  | .method other key => if other = owner then some key else none
  | .parameter other key _ => if other = owner then some key else none
  | _ => none

/-- The parameter of the method `key` of `owner` that a path leads to. -/
def index? (owner : ClassName) (key : MethodKey) : Path → Option UInt64
  | .parameter other key' index => if other = owner ∧ key' = key then some index else none
  | _ => none

end Path

namespace Table

/-- The parameters of a method, none if there is no method. -/
def parametersOf (table : Table n) (owner : ClassName) (key : MethodKey)
    : OrderedMap UInt64 (Parameter n) :=
  ((table.method? owner key).getD (.keyed key)).parameters

theorem parameter?_eq (table : Table n) (owner : ClassName) (key : MethodKey) (index : UInt64)
    : table.parameter? owner key index = (table.parametersOf owner key).get? index := by
  cases h : table.method? owner key <;> simp [parameter?, parametersOf, h, Method.keyed]

theorem fieldsOf_of_class? {table : Table n} {owner : ClassName} {cls : Class n}
    (stored : table.class? owner = some cls)
    : table.fieldsOf owner = cls.fields := by
  rw [fieldsOf, stored, Option.getD_some]

theorem methodsOf_of_class? {table : Table n} {owner : ClassName} {cls : Class n}
    (stored : table.class? owner = some cls)
    : table.methodsOf owner = cls.methods := by
  rw [methodsOf, stored, Option.getD_some]

theorem parametersOf_of_method? {table : Table n} {owner : ClassName} {key : MethodKey}
    {method : Method n} (stored : table.method? owner key = some method)
    : table.parametersOf owner key = method.parameters := by
  rw [parametersOf, stored, Option.getD_some]

theorem get?_fieldsOf {table : Table n} {owner : ClassName} {key : FieldKey}
    : (table.fieldsOf owner).get? key = table.field? owner key :=
  (table.field?_eq owner key).symm

theorem get?_methodsOf {table : Table n} {owner : ClassName} {key : MethodKey}
    : (table.methodsOf owner).get? key = table.method? owner key :=
  (table.method?_eq owner key).symm

theorem get?_parametersOf {table : Table n} {owner : ClassName} {key : MethodKey}
    {index : UInt64}
    : (table.parametersOf owner key).get? index = table.parameter? owner key index :=
  (table.parameter?_eq owner key index).symm

theorem labels_update (table : Table n) (path : Path)
    (change : Names n path.kind → Names n path.kind)
    : (table.update path change).labels = table.labels := by
  cases path <;> rfl

theorem classKeys_update (table : Table n) (path : Path)
    (change : Names n path.kind → Names n path.kind)
    : (table.update path change).classes.keys
      = (table.classes.keys ++ [path.owner]).eraseDups := by
  cases path <;> exact OrderedMap.keys_upsert_eq_eraseDups ..

theorem fieldsOf_updateField (table : Table n) (owner other : ClassName) (key : FieldKey)
    (change : Field n → Field n)
    : (table.updateField owner key change).fieldsOf other
      = if owner = other then (table.fieldsOf owner).upsert key (.keyed key) change
        else table.fieldsOf other :=
  fieldsOf_updateClass ..

/-- The fields of a class stay when something else is changed. -/
theorem fieldsOf_updateClass_of_eq (table : Table n) (owner other : ClassName)
    {change : Class n → Class n} (kept : ∀ cls, (change cls).fields = cls.fields)
    : (table.updateClass owner change).fieldsOf other = table.fieldsOf other := by
  rw [fieldsOf_updateClass]
  split
  · next same => rw [kept, ← same, fieldsOf]
  · rfl

theorem fieldsOf_update_cls (table : Table n) (owner other : ClassName)
    (change : Names n .cls → Names n .cls)
    : (table.update (.cls owner) change).fieldsOf other = table.fieldsOf other :=
  fieldsOf_updateClass_of_eq _ _ _ fun _ => rfl

theorem fieldsOf_updateMethod (table : Table n) (owner other : ClassName) (key : MethodKey)
    (change : Method n → Method n)
    : (table.updateMethod owner key change).fieldsOf other = table.fieldsOf other :=
  fieldsOf_updateClass_of_eq _ _ _ fun _ => rfl

theorem methodsOf_updateMethod (table : Table n) (owner other : ClassName) (key : MethodKey)
    (change : Method n → Method n)
    : (table.updateMethod owner key change).methodsOf other
      = if owner = other then (table.methodsOf owner).upsert key (.keyed key) change
        else table.methodsOf other :=
  methodsOf_updateClass ..

/-- The methods of a class stay when something else is changed. -/
theorem methodsOf_updateClass_of_eq (table : Table n) (owner other : ClassName)
    {change : Class n → Class n} (kept : ∀ cls, (change cls).methods = cls.methods)
    : (table.updateClass owner change).methodsOf other = table.methodsOf other := by
  rw [methodsOf_updateClass]
  split
  · next same => rw [kept, ← same, methodsOf]
  · rfl

theorem methodsOf_update_cls (table : Table n) (owner other : ClassName)
    (change : Names n .cls → Names n .cls)
    : (table.update (.cls owner) change).methodsOf other = table.methodsOf other :=
  methodsOf_updateClass_of_eq _ _ _ fun _ => rfl

theorem methodsOf_updateField (table : Table n) (owner other : ClassName) (key : FieldKey)
    (change : Field n → Field n)
    : (table.updateField owner key change).methodsOf other = table.methodsOf other :=
  methodsOf_updateClass_of_eq _ _ _ fun _ => rfl

theorem parametersOf_updateMethod (table : Table n) (owner other : ClassName)
    (key key' : MethodKey) (change : Method n → Method n)
    : (table.updateMethod owner key change).parametersOf other key'
      = if owner = other ∧ key = key' then
          (change ((table.method? owner key).getD (.keyed key))).parameters
        else table.parametersOf other key' := by
  simp only [parametersOf, method?_updateMethod]
  split <;> rfl

/-- Parameters stay when neither their method nor another one with its key is changed. -/
theorem parametersOf_of_method?_eq {table table' : Table n} {owner : ClassName}
    {key : MethodKey} (same : table'.method? owner key = table.method? owner key)
    : table'.parametersOf owner key = table.parametersOf owner key := by
  rw [parametersOf, parametersOf, same]

theorem fieldKeys_update (table : Table n) (owner : ClassName) (path : Path)
    (change : Names n path.kind → Names n path.kind)
    : ((table.update path change).fieldsOf owner).keys
      = ((table.fieldsOf owner).keys ++ (path.fieldKey? owner).toList).eraseDups := by
  have unchanged : (table.fieldsOf owner).keys
      = ((table.fieldsOf owner).keys ++ []).eraseDups := by
    rw [List.append_nil, OrderedMap.eraseDups_of_nodup (OrderedMap.keys_nodup _)]
  cases path with
  | cls other =>
      rw [fieldsOf_update_cls]
      exact unchanged
  | field other key =>
      rw [update, fieldsOf_updateField, Path.fieldKey?]
      by_cases same : other = owner
      · subst same
        simpa using OrderedMap.keys_upsert_eq_eraseDups ..
      · rw [if_neg same, if_neg same]
        exact unchanged
  | method other key =>
      rw [update, fieldsOf_updateMethod]
      exact unchanged
  | parameter other key index =>
      rw [update, updateParameter, fieldsOf_updateMethod]
      exact unchanged

theorem methodKeys_update (table : Table n) (owner : ClassName) (path : Path)
    (change : Names n path.kind → Names n path.kind)
    : ((table.update path change).methodsOf owner).keys
      = ((table.methodsOf owner).keys ++ (path.methodKey? owner).toList).eraseDups := by
  have unchanged : (table.methodsOf owner).keys
      = ((table.methodsOf owner).keys ++ []).eraseDups := by
    rw [List.append_nil, OrderedMap.eraseDups_of_nodup (OrderedMap.keys_nodup _)]
  cases path with
  | cls other =>
      rw [methodsOf_update_cls]
      exact unchanged
  | field other key =>
      rw [update, methodsOf_updateField]
      exact unchanged
  | method other key =>
      rw [update, methodsOf_updateMethod, Path.methodKey?]
      by_cases same : other = owner
      · subst same
        simpa using OrderedMap.keys_upsert_eq_eraseDups ..
      · rw [if_neg same, if_neg same]
        exact unchanged
  | parameter other key index =>
      rw [update, updateParameter, methodsOf_updateMethod, Path.methodKey?]
      by_cases same : other = owner
      · subst same
        simpa using OrderedMap.keys_upsert_eq_eraseDups ..
      · rw [if_neg same, if_neg same]
        exact unchanged

theorem parameterIndices_update (table : Table n) (owner : ClassName) (key : MethodKey)
    (path : Path) (change : Names n path.kind → Names n path.kind)
    : ((table.update path change).parametersOf owner key).keys
      = ((table.parametersOf owner key).keys ++ (path.index? owner key).toList).eraseDups := by
  have unchanged : (table.parametersOf owner key).keys
      = ((table.parametersOf owner key).keys ++ []).eraseDups := by
    rw [List.append_nil, OrderedMap.eraseDups_of_nodup (OrderedMap.keys_nodup _)]
  cases path with
  | cls other =>
      rw [parametersOf_of_method?_eq (method?_update_cls ..)]
      exact unchanged
  | field other key' =>
      rw [update, parametersOf_of_method?_eq (method?_updateField ..)]
      exact unchanged
  | method other key' =>
      rw [update, parametersOf_updateMethod]
      split
      · next same =>
        obtain ⟨rfl, rfl⟩ := same
        exact unchanged
      · exact unchanged
  | parameter other key' index =>
      rw [update, updateParameter, parametersOf_updateMethod, Path.index?]
      by_cases same : other = owner ∧ key' = key
      · rw [if_pos same, if_pos same]
        obtain ⟨rfl, rfl⟩ := same
        exact OrderedMap.keys_upsert_eq_eraseDups ..
      · rw [if_neg same, if_neg same]
        exact unchanged

-----------------------------------------------------------------------------------------
-- Keys stand in the order of their first use
-----------------------------------------------------------------------------------------

/-- Keys that each edit adds behind the others stand in the order of their first use after
a run, by induction on the edits.
-/
theorem keys_applyAll {κ : Type} [DecidableEq κ] (keysOf : Table n → List κ)
    (used : Path → Option κ) (nodup : ∀ table, (keysOf table).Nodup)
    (step
      : ∀ (table : Table n) (path : Path) (change : Names n path.kind → Names n path.kind),
          keysOf (table.update path change)
            = (keysOf table ++ (used path).toList).eraseDups)
    (table : Table n) (edits : List (Edit n))
    : keysOf (table.applyAll edits)
      = (keysOf table ++ edits.filterMap fun edit => used edit.path).eraseDups := by
  induction edits generalizing table with
  | nil => simp [applyAll, OrderedMap.eraseDups_of_nodup (nodup table)]
  | cons edit edits ih =>
      have first := step table edit.path edit.change
      have split : (edit :: edits).filterMap (fun edit => used edit.path)
          = (used edit.path).toList ++ edits.filterMap fun edit => used edit.path := by
        cases h : used edit.path <;> simp [h]
      change keysOf ((table.update edit.path edit.change).applyAll edits) = _
      rw [ih, first, OrderedMap.eraseDups_eraseDups_append, List.append_assoc, split]

theorem labels_applyAll (table : Table n) (edits : List (Edit n))
    : (table.applyAll edits).labels = table.labels := by
  induction edits generalizing table with
  | nil => rfl
  | cons edit edits ih =>
      change ((table.update edit.path edit.change).applyAll edits).labels = table.labels
      rw [ih, labels_update]

theorem classKeys_applyAll (table : Table n) (edits : List (Edit n))
    : (table.applyAll edits).classes.keys
      = (table.classes.keys ++ edits.map fun edit => edit.path.owner).eraseDups := by
  have run := keys_applyAll (fun table => table.classes.keys) (fun path => some path.owner)
    (fun table => table.classes.keys_nodup) classKeys_update table edits
  rwa [List.filterMap_eq_map'] at run

theorem fieldKeys_applyAll (table : Table n) (edits : List (Edit n)) (owner : ClassName)
    : ((table.applyAll edits).fieldsOf owner).keys
      = ((table.fieldsOf owner).keys
          ++ edits.filterMap fun edit => edit.path.fieldKey? owner).eraseDups :=
  keys_applyAll (fun table => (table.fieldsOf owner).keys) (Path.fieldKey? owner)
    (fun table => (table.fieldsOf owner).keys_nodup)
    (fun table => fieldKeys_update table owner) table edits

theorem methodKeys_applyAll (table : Table n) (edits : List (Edit n)) (owner : ClassName)
    : ((table.applyAll edits).methodsOf owner).keys
      = ((table.methodsOf owner).keys
          ++ edits.filterMap fun edit => edit.path.methodKey? owner).eraseDups :=
  keys_applyAll (fun table => (table.methodsOf owner).keys) (Path.methodKey? owner)
    (fun table => (table.methodsOf owner).keys_nodup)
    (fun table => methodKeys_update table owner) table edits

theorem parameterIndices_applyAll (table : Table n) (edits : List (Edit n))
    (owner : ClassName) (key : MethodKey)
    : ((table.applyAll edits).parametersOf owner key).keys
      = ((table.parametersOf owner key).keys
          ++ edits.filterMap fun edit => edit.path.index? owner key).eraseDups :=
  keys_applyAll (fun table => (table.parametersOf owner key).keys) (Path.index? owner key)
    (fun table => (table.parametersOf owner key).keys_nodup)
    (fun table => parameterIndices_update table owner key) table edits

end Table

-----------------------------------------------------------------------------------------
-- Names come from the changes on their own path
-----------------------------------------------------------------------------------------

/-- The path leads to the end of `other` or through it. -/
def Path.Reaches (path other : Path) : Prop := other = path ∨ other ∈ path.above

instance (path other : Path) : Decidable (path.Reaches other) :=
  inferInstanceAs (Decidable (_ ∨ _))

theorem Path.reaches_self (path : Path) : path.Reaches path := Or.inl rfl

/-- What an edit does to the names at the end of `path`, nothing unless it is the path of the
edit.
-/
def Edit.at (edit : Edit n) (path : Path) (names : Names n path.kind) : Names n path.kind :=
  if same : edit.path = path then same ▸ edit.change (same ▸ names) else names

theorem Edit.at_self (path : Path) (change : Names n path.kind → Names n path.kind)
    : (Edit.mk path change).at path = change := by
  funext names
  simp [Edit.at]

theorem Edit.at_of_ne {edit : Edit n} {path : Path} (other : edit.path ≠ path)
    (names : Names n path.kind)
    : edit.at path names = names := by
  simp [Edit.at, other]

namespace Table

/-- One edit makes the entries on its path, and changes the names at the end of it. -/
theorem names?_update (table : Table n) (edit : Edit n) (path : Path)
    : (table.update edit.path edit.change).names? path
      = if edit.path.Reaches path then
          some (edit.at path ((table.names? path).getD (freshNames path)))
        else table.names? path := by
  obtain ⟨changed, change⟩ := edit
  by_cases ends : path = changed
  · subst ends
    rw [if_pos path.reaches_self, Edit.at_self]
    exact names?_update_self table path change
  · have kept (names : Names n path.kind) : (Edit.mk changed change).at path names = names :=
      Edit.at_of_ne (Ne.symm ends) names
    by_cases above : path ∈ changed.above
    · have reached : changed.Reaches path := Or.inr above
      rw [if_pos reached, kept]
      exact names?_update_above table above change
    · have apart : ¬changed.Reaches path := not_or.mpr ⟨ends, above⟩
      rw [if_neg apart]
      exact names?_update_of_ne table ends above change

/-- A run makes the entries that a path of it leads to or through, each with the changes at the
end of its own path. By induction on the edits.
-/
theorem names?_applyAll (table : Table n) (edits : List (Edit n)) (path : Path)
    : (table.applyAll edits).names? path
      = if ∃ edit ∈ edits, edit.path.Reaches path then
          some (edits.foldl (fun names edit => edit.at path names)
            ((table.names? path).getD (freshNames path)))
        else table.names? path := by
  induction edits generalizing table with
  | nil => simp [applyAll]
  | cons edit edits ih =>
      have step := names?_update table edit path
      change ((table.update edit.path edit.change).applyAll edits).names? path = _
      rw [ih, step]
      by_cases first : edit.path.Reaches path
      · by_cases later : ∃ edit ∈ edits, edit.path.Reaches path
        · simp [first, later]
        · have untouched : ∀ names, edits.foldl (fun names edit => edit.at path names) names
              = names := by
            intro names
            have apart : ∀ edit ∈ edits, edit.path ≠ path :=
              fun edit member same => later ⟨edit, member, Or.inl same.symm⟩
            clear ih later
            induction edits with
            | nil => rfl
            | cons edit edits ih =>
                rw [List.foldl_cons, Edit.at_of_ne (apart edit List.mem_cons_self)]
                exact ih fun edit member => apart edit (List.mem_cons_of_mem _ member)
          simp [first, later, untouched]
      · have other : edit.path ≠ path := fun same => first (Or.inl same.symm)
        simp [first, Edit.at_of_ne other]

/-- What the edits that some items stand for lead to or through, told for the items. -/
theorem exists_reaches_map {ι : Type} {edit : ι → Edit n} {items : List ι} {path : Path}
    : (∃ made ∈ items.map edit, made.path.Reaches path)
      ↔ ∃ item ∈ items, (edit item).path.Reaches path := by
  constructor
  · intro given
    rcases given with ⟨made, edited, reaches⟩
    obtain ⟨item, member, rfl⟩ := List.mem_map.mp edited
    exact ⟨item, member, reaches⟩
  · intro given
    rcases given with ⟨item, member, reaches⟩
    exact ⟨edit item, List.mem_map_of_mem member, reaches⟩

end Table

end NameTables
