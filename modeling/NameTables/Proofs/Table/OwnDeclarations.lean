import NameTables.Proofs.Table.Content

/-! What a table declares itself.
Each entry declares its names under its key, in the order of the table. A described table is made by
these declarations again.
-/

namespace NameTables

variable {n : Nat}

/-- The declarations of a method and of its parameters. -/
def Method.declarations (owner : ClassName) (key : MethodKey) (method : Method n)
    : List (Declaration n) :=
  ⟨.method owner key, method.names⟩
    :: method.parameters.entries.map fun (index, parameter) =>
      ⟨.parameter owner key index, parameter.names⟩

/-- The declarations of a class and of its members. -/
def Class.declarations (owner : ClassName) (cls : Class n) : List (Declaration n) :=
  ⟨.cls owner, cls.names⟩
    :: (cls.fields.entries.map fun (key, field) => ⟨.field owner key, field.names⟩)
    ++ cls.methods.entries.flatMap fun (key, method) => method.declarations owner key

/-- The declarations of all entries. -/
def Table.declarations (table : Table n) : List (Declaration n) :=
  table.classes.entries.flatMap fun (owner, cls) => cls.declarations owner

theorem Class.owner_of_mem_declarations {owner : ClassName} {cls : Class n}
    {declared : Declaration n} (member : declared ∈ cls.declarations owner)
    : declared.path.owner = owner := by
  simp only [Class.declarations, Method.declarations, List.cons_append, List.mem_cons,
    List.mem_append, List.mem_map, List.mem_flatMap] at member
  rcases member with rfl | ⟨_, _, rfl⟩ | ⟨_, _, rfl | ⟨_, _, rfl⟩⟩ <;> rfl

namespace Table

variable {table : Table n}

/-- Exactly the entries of the table are declared, with the names that they have. -/
theorem mem_declarations_iff {path : Path} {names : Names n path.kind}
    : ⟨path, names⟩ ∈ table.declarations ↔ table.names? path = some names := by
  simp only [declarations, Class.declarations, Method.declarations, List.mem_flatMap,
    List.cons_append, List.mem_cons, List.mem_append, List.mem_map, Prod.exists,
    ← OrderedMap.get?_eq_some_iff]
  cases path with
  | cls owner =>
      simp only [names?_cls, class?, Option.map_eq_some_iff]
      grind
  | field owner key =>
      simp only [names?_field, field?, class?, Option.bind_eq_bind, Option.map_eq_some_iff,
        Option.bind_eq_some_iff]
      grind
  | method owner key =>
      simp only [names?_method, method?, class?, Option.bind_eq_bind, Option.map_eq_some_iff,
        Option.bind_eq_some_iff]
      grind
  | parameter owner key index =>
      simp only [names?_parameter, parameter?, method?, class?, Option.bind_eq_bind,
        Option.map_eq_some_iff, Option.bind_eq_some_iff]
      grind

/-- An entry is there with all that its path leads through. -/
theorem exists_names?_of_mem_above {path : Path} {names : Names n path.kind}
    (found : table.names? path = some names) {owner : Path} (above : owner ∈ path.above)
    : ∃ names', table.names? owner = some names' := by
  obtain ⟨cls, stored⟩ := exists_class?_of_names? found
  have on_class : table.names? (.cls path.owner) = some cls.names := by
    rw [names?_cls, stored, Option.map_some]
  cases path with
  | cls => simp [Path.above] at above
  | field | method =>
      obtain rfl := List.mem_singleton.mp above
      exact ⟨_, on_class⟩
  | parameter name key index =>
      obtain ⟨parameter, inside, _⟩ := Option.map_eq_some_iff.mp found
      obtain ⟨method, found_method, _⟩ := Option.bind_eq_some_iff.mp inside
      rcases List.mem_cons.mp above with rfl | above
      · exact ⟨_, on_class⟩
      · obtain rfl := List.mem_singleton.mp above
        exact ⟨method.names, by rw [names?_method, found_method, Option.map_some]⟩

/-- Classes are declared with their members, and methods with their parameters. -/
theorem ownersDeclared_declarations : OwnersDeclared table.declarations := by
  intro declared member owner above
  obtain ⟨names, found⟩ := exists_names?_of_mem_above (mem_declarations_iff.mp member) above
  exact List.mem_map_of_mem (f := Declaration.path) (mem_declarations_iff.mpr found)

-----------------------------------------------------------------------------------------
-- Keys stand in the order of their declarations
-----------------------------------------------------------------------------------------

/-- Repetitions of the key in front of them add nothing. -/
theorem eraseDups_flatMap_entries {κ α : Type} [DecidableEq κ] {m : OrderedMap κ α}
    {more : κ × α → List κ} (old : ∀ entry ∈ m.entries, more entry ⊆ [entry.1])
    : (m.entries.flatMap fun entry => entry.1 :: more entry).eraseDups = m.keys := by
  have repeats : ∀ entry ∈ m.entries, ∃ rest,
      entry.1 :: more entry = (some entry.1).toList ++ rest ∧ rest ⊆ (some entry.1).toList :=
    fun entry listed => ⟨more entry, rfl, old entry listed⟩
  rw [OrderedMap.eraseDups_flatMap repeats, List.filterMap_eq_map',
    OrderedMap.eraseDups_of_nodup m.nodup, OrderedMap.keys]

theorem owners_declarations
    : (table.declarations.map fun declared => declared.path.owner).eraseDups
      = table.classes.keys := by
  rw [declarations, List.map_flatMap]
  apply eraseDups_flatMap_entries
  intro entry _ owner member
  obtain ⟨declared, among, rfl⟩ := List.mem_map.mp member
  have inside : declared ∈ entry.2.declarations entry.1 := List.mem_cons_of_mem _ among
  exact List.mem_singleton.mpr (Class.owner_of_mem_declarations inside)

/-- What concerns one class is declared with that class. -/
theorem filterMap_declarations {β : Type} {told : Path → Option β} {owner : ClassName}
    (apart : ∀ path, path.owner ≠ owner → told path = none)
    : (table.declarations.filterMap fun declared => told declared.path)
      = (table.class? owner).toList.flatMap fun cls =>
          (cls.declarations owner).filterMap fun declared => told declared.path := by
  rw [declarations, List.filterMap_flatMap,
    OrderedMap.flatMap_entries_of_unique table.classes.nodup]
  · rfl
  · intro entry _ other
    rw [List.filterMap_eq_nil_iff]
    intro declared member
    apply apart
    rwa [Class.owner_of_mem_declarations member]

theorem fieldKeys_declarations (owner : ClassName)
    : (table.declarations.filterMap fun declared => declared.path.fieldKey? owner)
      = (table.fieldsOf owner).keys := by
  have apart : ∀ path : Path, path.owner ≠ owner → path.fieldKey? owner = none := by
    intro path other
    cases path <;> simp_all [Path.fieldKey?, Path.owner]
  rw [filterMap_declarations apart, fieldsOf]
  cases table.class? owner with
  | none => rfl
  | some cls =>
      simp [Class.declarations, Method.declarations, Path.fieldKey?, OrderedMap.keys,
        List.filterMap_flatMap]

theorem methodKeys_declarations (owner : ClassName)
    : (table.declarations.filterMap fun declared => declared.path.methodKey? owner).eraseDups
      = (table.methodsOf owner).keys := by
  have apart : ∀ path : Path, path.owner ≠ owner → path.methodKey? owner = none := by
    intro path other
    cases path <;> simp_all [Path.methodKey?, Path.owner]
  rw [filterMap_declarations apart, methodsOf]
  cases table.class? owner with
  | none => rfl
  | some cls =>
      have visited : (cls.declarations owner).filterMap
            (fun declared => declared.path.methodKey? owner)
          = cls.methods.entries.flatMap fun entry =>
              entry.1 :: entry.2.parameters.entries.map fun _ => entry.1 := by
        simp [Class.declarations, Method.declarations, Path.methodKey?, List.filterMap_flatMap]
      rw [Option.toList_some, List.flatMap_singleton, visited, Option.getD_some]
      apply eraseDups_flatMap_entries
      intro entry _ key member
      obtain ⟨_, _, rfl⟩ := List.mem_map.mp member
      exact List.mem_singleton_self entry.1

theorem parameterIndices_declarations (owner : ClassName) (key : MethodKey)
    : (table.declarations.filterMap fun declared => declared.path.index? owner key)
      = (table.parametersOf owner key).keys := by
  have apart : ∀ path : Path, path.owner ≠ owner → path.index? owner key = none := by
    intro path other
    cases path <;> simp_all [Path.index?, Path.owner]
  rw [filterMap_declarations apart, parametersOf, method?]
  cases table.class? owner with
  | none => rfl
  | some cls =>
      have visited : (cls.declarations owner).filterMap
            (fun declared => declared.path.index? owner key)
          = cls.methods.entries.flatMap fun entry =>
              entry.2.parameters.keys.filterMap fun index =>
                if entry.1 = key then some index else none := by
        simp [Class.declarations, Method.declarations, Path.index?, List.filterMap_flatMap,
          OrderedMap.keys, List.filterMap_map]
      rw [Option.toList_some, List.flatMap_singleton, visited,
        OrderedMap.flatMap_entries_of_unique cls.methods.nodup]
      · change _ = ((cls.methods.get? key).getD (.keyed key)).parameters.keys
        rw [OrderedMap.get?]
        cases OrderedMap.lookup? cls.methods.entries key with
        | none => rfl
        | some method => simp
      · intro entry _ other
        simp [other]

/-- The table has the keys that its declarations make. -/
theorem sameKeys_declarations
    : SameKeys ((Table.empty table.labels).declareAll table.declarations) table := by
  rw [declareAll_eq_applyAll]
  constructor
  · rw [classKeys_applyAll, List.map_map]
    exact owners_declarations
  · intro owner
    rw [fieldKeys_applyAll, List.filterMap_map]
    exact (congrArg List.eraseDups (fieldKeys_declarations owner)).trans
      (OrderedMap.eraseDups_of_nodup (OrderedMap.keys_nodup _))
  · intro owner
    rw [methodKeys_applyAll, List.filterMap_map]
    exact methodKeys_declarations owner
  · intro owner key
    rw [parameterIndices_applyAll, List.filterMap_map]
    exact (congrArg List.eraseDups (parameterIndices_declarations owner key)).trans
      (OrderedMap.eraseDups_of_nodup (OrderedMap.keys_nodup _))

/-- A coherent table is made by its own declarations. -/
theorem Coherent.declareAll_declarations (coherent : table.Coherent) (positive : 0 < n)
    : (Table.empty table.labels).declareAll table.declarations = table := by
  have made : ((Table.empty table.labels).declareAll table.declarations).Coherent := by
    apply declareAll_coherent _ positive
    intro declared member
    exact coherent.names_fit (mem_declarations_iff.mp member)
  apply made.described.eq_of_sameKeys coherent.described (labels_declareAll ..)
    sameKeys_declarations
  intro path names names' found found'
  rw [names?_declareAll _ ownersDeclared_declarations] at found
  have own := mem_declarations_iff.mp (mem_of_lastDeclared? found)
  exact Option.some.inj (own.symm.trans found')

end Table

end NameTables
