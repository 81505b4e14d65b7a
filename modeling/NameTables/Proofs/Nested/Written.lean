import NameTables.Proofs.Format.Words
import NameTables.Proofs.Nested.Order
import NameTables.Proofs.Nested.Rendering

/-! The written rows as declarations.
The rows below the header declare, in their order, the entries that are written, each with the names
that are written for it. So a reader finds exactly those.
-/

namespace NameTables

namespace Table

/-- The target name of the entry at the end of `path`. -/
def targetAt? (table : Table 2) (path : Path) : Option (Name path.kind) :=
  (table.names? path).bind Names.target

theorem targetAt?_of_names? {table : Table 2} {path : Path} {names : Names 2 path.kind}
    (found : table.names? path = some names)
    : table.targetAt? path = names.target := by
  rw [targetAt?, found]
  rfl

/-- The names that are written for the entry at the end of a path: of a class with its full target
name, of a method with its own name if it has no target, of a parameter without its own name.
-/
def writtenNames (table : Table 2) : (path : Path) → Names 2 path.kind
  | .cls owner => .pair (some owner) (some (table.fullTarget owner))
  | .field owner key => .pair (some key.name) (table.targetAt? (.field owner key))
  | .method owner key =>
      .pair (some key.name) (some ((table.targetAt? (.method owner key)).getD key.name))
  | .parameter owner key index => .pair none (table.targetAt? (.parameter owner key index))

def written (table : Table 2) (path : Path) : Declaration 2 := ⟨path, table.writtenNames path⟩

end Table

-----------------------------------------------------------------------------------------
-- The rows are those of what is written, path by path
-----------------------------------------------------------------------------------------

namespace Nested

variable {table : Table 2} {arrangement : Arrangement}

theorem parameterRows_eq (coherent : table.Coherent) {owner : ClassName} {key : MethodKey}
    {method : Method 2} (stored : table.method? owner key = some method)
    : parameterRows method
      = (parameterOrder table owner key).map fun index =>
          (table.written (.parameter owner key index)).row := by
  rw [parameterRows, parameterOrder, Table.parametersOf_of_method? stored, List.map_map,
    ← List.filterMap_eq_map]
  apply List.filterMap_congr
  intro parameter member
  obtain ⟨listed, mapped⟩ := List.mem_filter.mp (List.mem_mergeSort.mp member)
  obtain ⟨index, found⟩ := OrderedMap.mem_values_iff.mp listed
  have parameter_stored : table.parameter? owner key index = some parameter :=
    Option.bind_eq_some_iff.mpr ⟨method, stored, found⟩
  obtain rfl := coherent.parameter parameter_stored
  obtain ⟨target, named⟩ := Option.isSome_iff_exists.mp mapped
  have target_eq : table.targetAt? (.parameter owner key parameter.index)
      = parameter.names.target :=
    Table.targetAt?_of_names? (Option.map_eq_some_iff.mpr ⟨parameter, parameter_stored, rfl⟩)
  simp [parameterRow?, named, Declaration.row, Table.written, Table.writtenNames, target_eq,
    Path.tag, Path.cells, Path.above]

theorem methodRows_eq (coherent : table.Coherent) {owner : ClassName} {key : MethodKey}
    {method : Method 2} (stored : table.method? owner key = some method)
    : methodRows method
      = (methodPaths table owner key).map fun path => (table.written path).row := by
  obtain ⟨first, descriptor⟩ := coherent.method stored
  have target_eq : table.targetAt? (.method owner key) = method.names.target :=
    Table.targetAt?_of_names? (Option.map_eq_some_iff.mpr ⟨method, stored, rfl⟩)
  rw [methodRows, Names.source_eq_first?, first, methodPaths, List.map_cons, List.map_map,
    parameterRows_eq coherent stored, descriptor]
  simp [Declaration.row, Table.written, Table.writtenNames, target_eq, Path.tag, Path.cells,
    Path.above, Function.comp_def]

theorem fieldRow?_eq (coherent : table.Coherent) {owner : ClassName} {key : FieldKey}
    {field : Field 2} (stored : table.field? owner key = some field)
    (mapped : field.names.target.isSome = true) (complete : field.lacksDescriptor = false)
    : fieldRow? field = some (table.written (.field owner key)).row := by
  obtain ⟨first, descriptor_eq⟩ := coherent.field stored
  have target_eq : table.targetAt? (.field owner key) = field.names.target :=
    Table.targetAt?_of_names? (Option.map_eq_some_iff.mpr ⟨field, stored, rfl⟩)
  obtain ⟨target, named⟩ := Option.isSome_iff_exists.mp mapped
  cases descriptor? : key.descriptor with
  | none => simp [Field.lacksDescriptor, descriptor_eq, descriptor?, mapped] at complete
  | some descriptor =>
      simp [fieldRow?, Names.source_eq_first?, first, named, descriptor_eq, descriptor?,
        Declaration.row, Table.written, Table.writtenNames, target_eq, Path.tag, Path.cells,
        Path.above]

/-- Items that each tell a key are visited by their keys, by list induction. -/
theorem flatMap_filterMap_eq {α β γ : Type} {items : List α} {key? : α → Option β}
    {visit : α → List γ} {visitKey : β → List γ}
    (keyed : ∀ item ∈ items, ∃ key, key? item = some key ∧ visit item = visitKey key)
    : items.flatMap visit = (items.filterMap key?).flatMap visitKey := by
  induction items with
  | nil => rfl
  | cons item items ih =>
      obtain ⟨key, found, same⟩ := keyed item List.mem_cons_self
      rw [List.flatMap_cons, List.filterMap_cons, found, same,
        ih fun item member => keyed item (List.mem_cons_of_mem _ member)]
      rfl

theorem memberRows_eq (coherent : table.Coherent) (checked : table.checkDescriptors = .ok ())
    {owner : ClassName} {cls : Class 2} (stored : table.class? owner = some cls)
    : memberRows arrangement owner cls
      = ((methodOrder table arrangement owner).flatMap (methodPaths table owner)
          ++ (fieldOrder table arrangement owner).map (Path.field owner)).map
          fun path => (table.written path).row := by
  rw [memberRows, List.map_append, List.map_flatMap, List.map_map, methodOrder, fieldOrder,
    Table.methodsOf_of_class? stored, Table.fieldsOf_of_class? stored]
  congr 1
  · apply flatMap_filterMap_eq
    intro member sorted
    obtain ⟨key, method, method_stored, rfl⟩ := exists_of_mem_sortMethods stored sorted
    exact ⟨key, coherent.method_key? method_stored, methodRows_eq coherent method_stored⟩
  · rw [List.map_filterMap]
    apply List.filterMap_congr
    intro member sorted
    obtain ⟨key, field, field_stored, mapped, rfl⟩ := exists_of_mem_sortFields stored sorted
    have complete := (Table.checkDescriptors_eq_ok_iff.mp checked).1 owner key field field_stored
    rw [fieldRow?_eq coherent field_stored mapped complete, coherent.field_key? field_stored]
    rfl

/-- The rows of the classes below `outer`, by induction on the depth. -/
theorem classRows_eq (coherent : table.Coherent) (checked : table.checkDescriptors = .ok ())
    (depth : Nat) (outer : Option ClassName)
    : classRows table arrangement (Nesting.ofTable table) depth
        ((Nesting.ofTable table).inside outer)
      = (preorder table arrangement depth outer).flatMap fun owner =>
          (classPaths table arrangement owner).map fun path => (table.written path).row := by
  induction depth generalizing outer with
  | zero => rfl
  | succ depth ih =>
      rw [classRows, preorder, classOrder, List.flatMap_assoc]
      apply flatMap_filterMap_eq
      intro cls sorted
      obtain ⟨among, _⟩ := List.mem_filter.mp (List.mem_mergeSort.mp sorted)
      obtain ⟨owner, stored, _⟩ := Nesting.mem_inside_iff.mp among
      refine ⟨owner, source_eq coherent stored, ?_⟩
      simp only [source_eq coherent stored]
      have on_class : (table.written (.cls owner)).row
          = ⟨0, "c", [owner.text, (table.fullTarget owner).text]⟩ := rfl
      rw [memberRows_eq coherent checked stored, ih, List.flatMap_cons, classPaths]
      simp only [List.cons_append, List.map_cons, on_class]

/-- The rows below the header are those of what is written. -/
theorem body_eq (coherent : table.Coherent) (checked : table.checkDescriptors = .ok ())
    : body table arrangement
      = ((paths table arrangement).map table.written).map Declaration.row := by
  have size : (Nesting.ofTable table).classes.length = table.classes.keys.length := by
    simp [Nesting.ofTable, OrderedMap.keys]
  rw [List.map_map, paths, List.map_flatMap, body, size]
  exact classRows_eq coherent checked table.classes.keys.length none

theorem block_methodPaths (owner : ClassName) (key : MethodKey)
    : Block [.cls owner] (methodPaths table owner key) := by
  have parameters : Block (trail (.method owner key))
      ((parameterOrder table owner key).map (.parameter owner key)) := by
    rw [List.map_eq_flatMap]
    exact Block.flatMap fun index _ => Block.single (.parameter owner key index)
  exact parameters.cons

theorem block_classPaths (owner : ClassName) : Block [] (classPaths table arrangement owner) := by
  have methods : Block (trail (.cls owner))
      ((methodOrder table arrangement owner).flatMap (methodPaths table owner)) :=
    Block.flatMap fun key _ => block_methodPaths owner key
  have fields : Block (trail (.cls owner))
      ((fieldOrder table arrangement owner).map (Path.field owner)) := by
    rw [List.map_eq_flatMap]
    exact Block.flatMap fun key _ => Block.single (.field owner key)
  exact (methods.append fields).cons

/-- Every entry is written while those above it are open. -/
theorem ordered_paths : Ordered [] (paths table arrangement) := by
  have block : Block [] (paths table arrangement) :=
    Block.flatMap fun owner _ => block_classPaths owner
  exact block.ordered [] (List.prefix_refl [])

end Nested

-----------------------------------------------------------------------------------------
-- Tables that can be told from what is written
-----------------------------------------------------------------------------------------

namespace Table

variable {table : Table 2}

/-- The name of a class carries over, so a full target name has the characters of names and `$`. By
induction outwards.
-/
theorem fullTarget_forall {good : Char → Prop} (dollar : good '$')
    (own : ∀ name ∈ table.classes.keys, ∀ c ∈ name.text.toList, good c)
    (target
      : ∀ name target, table.target? name = some target → ∀ c ∈ target.text.toList, good c)
    {owner : ClassName} (listed : owner ∈ table.classes.keys)
    : ∀ c ∈ (table.fullTarget owner).text.toList, good c := by
  fun_induction Table.fullTarget table owner with
  | case1 name renamed named => exact target name renamed named
  | case2 name unnamed outer found shorter ih =>
      have outer_good := ih (mem_keys_of_outer? found)
      have own_good := own name listed
      simp only [Name.nested, String.toList_append, String.toList_ofList, List.forall_mem_append]
      refine ⟨⟨outer_good, by simpa using dollar⟩, fun c member => ?_⟩
      exact own_good c (List.mem_of_mem_drop member)
  | case3 name unnamed found => exact own name listed

theorem fullTarget_isWord (coherent : table.Coherent) (plain : table.Plain) {owner : ClassName}
    (listed : owner ∈ table.classes.keys)
    : Text.IsWord (table.fullTarget owner).text := by
  have own_word : ∀ name ∈ table.classes.keys, Text.IsWord name.text := by
    intro name listed
    obtain ⟨cls, stored⟩ := mem_keys_iff.mp listed
    have at_path : table.names? (.cls name) = some cls.names := by
      rw [names?_cls, stored]
      rfl
    exact plain.name at_path (Nested.source_eq coherent stored)
  have target_word : ∀ name target, table.target? name = some target → Text.IsWord target.text := by
    intro name target named
    obtain ⟨cls, stored, target_eq⟩ := Option.bind_eq_some_iff.mp named
    have at_path : table.names? (.cls name) = some cls.names := by
      rw [names?_cls, stored]
      rfl
    exact plain.name at_path target_eq
  refine ⟨?_, fullTarget_forall (by decide) (fun name listed => (own_word name listed).2)
    (fun name target named => (target_word name target named).2) listed⟩
  rw [Table.fullTarget]
  split
  · next target named => exact (target_word owner target named).1
  · split
    · simp [Name.nested]
    · exact (own_word owner listed).1

end Table

namespace Nested

/-- The names that are written for an entry are its own, but for the full target name of a class. -/
theorem writtenNames_get_cases {table : Table 2} (coherent : table.Coherent) {path : Path}
    {names : Names 2 path.kind} (at_path : table.names? path = some names) {i : Fin 2}
    {name : Name path.kind} (found : (table.writtenNames path).get i = some name)
    : (∃ j, names.get j = some name)
      ∨ ∃ owner, path = .cls owner ∧ name.text = (table.fullTarget owner).text := by
  have fits := coherent.names_fit at_path
  have own {name : Name path.kind} (first : names.first? = some name)
      : ∃ j, names.get j = some name :=
    ⟨0, (Names.source_eq_first? names).trans first⟩
  have target {name : Name path.kind} (named : table.targetAt? path = some name)
      : ∃ j, names.get j = some name :=
    ⟨1, (Table.targetAt?_of_names? at_path).symm.trans named⟩
  cases path with
  | cls owner =>
      rcases Names.eq_or_eq_of_get_pair found with same | same
      · obtain rfl := Option.some.inj same
        exact Or.inl (own fits)
      · obtain rfl := Option.some.inj same
        exact Or.inr ⟨owner, rfl, rfl⟩
  | field owner key =>
      rcases Names.eq_or_eq_of_get_pair found with same | same
      · obtain rfl := Option.some.inj same
        exact Or.inl (own fits)
      · exact Or.inl (target same)
  | method owner key =>
      rcases Names.eq_or_eq_of_get_pair found with same | same
      · obtain rfl := Option.some.inj same
        exact Or.inl (own fits)
      · obtain rfl := Option.some.inj same
        cases target? : table.targetAt? (.method owner key) with
        | none => exact Or.inl (own fits)
        | some renamed => exact Or.inl (target target?)
  | parameter owner key index =>
      rcases Names.eq_or_eq_of_get_pair found with same | same
      · simp at same
      · exact Or.inl (target same)

/-- What is written for an entry consists of words. -/
theorem writtenNames_isWord (coherent : table.Coherent) (plain : table.Plain) {path : Path}
    (kept : Kept table path) {i : Fin 2} {name : Name path.kind}
    (found : (table.writtenNames path).get i = some name)
    : Text.IsWord name.text := by
  obtain ⟨names, at_path⟩ := kept.exists_names?
  rcases writtenNames_get_cases coherent at_path found with ⟨j, own⟩ | ⟨owner, rfl, same⟩
  · exact plain.name at_path own
  · exact same ▸ Table.fullTarget_isWord coherent plain kept.1

theorem writtenNames_fits (table : Table 2) (path : Path)
    : path.Fits (table.writtenNames path) := by
  cases path with
  | cls | field | method => rfl
  | parameter => trivial

/-- A mapped entry has its descriptor. -/
theorem Kept.path_readable (coherent : table.Coherent) (checked : table.checkDescriptors = .ok ())
    {path : Path} (kept : Kept table path)
    : path.Readable := by
  obtain ⟨fields, methods⟩ := Table.checkDescriptors_eq_ok_iff.mp checked
  cases path with
  | cls | parameter => trivial
  | field owner key =>
      obtain ⟨field, stored, mapped⟩ := kept
      intro descriptor found empty
      have complete := fields owner key field stored
      simp [Field.lacksDescriptor, (coherent.field stored).2, found, empty, mapped] at complete
  | method owner key =>
      obtain ⟨method, stored, mapped⟩ := kept
      intro empty
      have complete := methods owner key method stored
      simp [Method.lacksDescriptor, (coherent.method stored).2, empty, mapped] at complete

/-- What is written for an entry can be told from its row. -/
theorem written_readable (coherent : table.Coherent) (plain : table.Plain)
    (checked : table.checkDescriptors = .ok ()) {path : Path} (kept : Kept table path)
    : (table.written path).Readable where
  path := kept.path_readable coherent checked
  fits := writtenNames_fits table path
  filled _ _ found := (writtenNames_isWord coherent plain kept found).1

theorem tag_isWord (path : Path) : Text.IsWord path.tag := by
  cases path with
  | cls => exact (by decide : Text.IsWord "c")
  | field => exact (by decide : Text.IsWord "f")
  | method => exact (by decide : Text.IsWord "m")
  | parameter => exact (by decide : Text.IsWord "p")

theorem written_row_isPlain (coherent : table.Coherent) (plain : table.Plain) {path : Path}
    (kept : Kept table path)
    : (table.written path).row.IsPlain where
  tag_ne := (tag_isWord path).1
  plain cell member := by
    obtain ⟨names, found⟩ := kept.exists_names?
    rcases List.mem_cons.mp member with rfl | member
    · exact (tag_isWord path).2
    · rcases List.mem_append.mp member with key_cell | name_cell
      · exact Path.isPlain_of_mem_cells (plain.hasPlainDescriptor coherent found) key_cell
      · exact Names.isPlain_of_mem_cells
          (fun _ _ named => writtenNames_isWord coherent plain kept named) name_cell

theorem headerRow_isPlain {source target : String} (source_word : Text.IsWord source)
    (target_word : Text.IsWord target)
    : (headerRow source target).IsPlain where
  tag_ne := (by decide : Text.IsWord "tiny").1
  plain cell member := by
    have cells : cell = "tiny" ∨ cell = "2" ∨ cell = "0" ∨ cell = source ∨ cell = target := by
      simpa [headerRow] using member
    rcases cells with rfl | rfl | rfl | rfl | rfl
    · decide
    · decide
    · decide
    · exact source_word.2
    · exact target_word.2

/-- All rows of a written file are plain. -/
theorem rows_isPlain (coherent : table.Coherent) (plain : table.Plain)
    (checked : table.checkDescriptors = .ok ()) {source target : String}
    (source_word : Text.IsWord source) (target_word : Text.IsWord target)
    (arrangement : Arrangement)
    : ∀ row ∈ headerRow source target :: body table arrangement, row.IsPlain := by
  rw [body_eq coherent checked]
  intro row member
  rcases List.mem_cons.mp member with rfl | below
  · exact headerRow_isPlain source_word target_word
  · obtain ⟨declaration, listed, rfl⟩ := List.mem_map.mp below
    obtain ⟨path, among, rfl⟩ := List.mem_map.mp listed
    exact written_row_isPlain coherent plain ((mem_paths_iff coherent).mp among)

/-- A written file is read as what was written. -/
theorem read_written (coherent : table.Coherent) (plain : table.Plain)
    (checked : table.checkDescriptors = .ok ()) {source target : String}
    (source_word : Text.IsWord source) (target_word : Text.IsWord target)
    : Format.nested.read 2
        (Row.renderAll (headerRow source target :: body table arrangement)).toUTF8
      = .ok ((Table.empty ⟨#v[source, target]⟩).declareAll
          ((paths table arrangement).map table.written)) := by
  have header : headerRow source target = headerOf ⟨#v[source, target]⟩ := rfl
  have rows_plain := rows_isPlain coherent plain checked source_word target_word arrangement
  rw [body_eq coherent checked, header] at rows_plain ⊢
  refine read_rows (by decide) ?_ ?_ ?_ rows_plain
  · simp [Labels.toList, source_word.1.symm, target_word.1.symm]
  · intro declaration member
    obtain ⟨path, listed, rfl⟩ := List.mem_map.mp member
    exact written_readable coherent plain checked ((mem_paths_iff coherent).mp listed)
  · rw [List.map_map]
    have same : Declaration.path ∘ table.written = id := rfl
    rw [same, List.map_id]
    exact ordered_paths

end Nested

end NameTables
