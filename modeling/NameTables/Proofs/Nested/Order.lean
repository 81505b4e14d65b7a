import NameTables.Arrangement
import NameTables.Format.NestedWriter
import NameTables.Proofs.Nested.Hierarchy
import NameTables.Proofs.Table.Content

/-! What is written, and in which order.
The writer visits every class that carries mappings exactly once, after the class that it is nested
in, and in it the mapped methods with their mapped parameters and then the mapped fields.
-/

namespace NameTables

/-- Sorting moves keys, and neither adds nor drops any. -/
theorem filterMap_sortBy_perm {α β : Type} (compare : α → α → Ordering) (items : List α)
    (key? : α → Option β)
    : ((sortBy compare items).filterMap key?).Perm (items.filterMap key?) :=
  (List.mergeSort_perm items _).filterMap key?

namespace Nested

variable (table : Table 2) (arrangement : Arrangement)

/-- The classes directly in `outer` that carry mappings. -/
def classOrder (outer : Option ClassName) : List ClassName :=
  (arrangement.sortClasses
    (((Nesting.ofTable table).inside outer).filter (Nesting.ofTable table).isMapped)).filterMap
      fun cls => cls.names.source

/-- The classes in `outer` that carry mappings, each in front of those nested in it, at most `depth`
levels below.
-/
def preorder : Nat → Option ClassName → List ClassName
  | 0, _ => []
  | depth + 1, outer =>
      (classOrder table arrangement outer).flatMap fun owner =>
        owner :: preorder depth (some owner)

/-- The mapped methods of a class. -/
def methodOrder (owner : ClassName) : List MethodKey :=
  (arrangement.sortMethods
    (((table.methodsOf owner).values.filter Method.isMapped).map (Member.mk owner))).filterMap
      fun method => method.item.key?

/-- The fields of a class that have a target name. -/
def fieldOrder (owner : ClassName) : List FieldKey :=
  (arrangement.sortFields
    (((table.fieldsOf owner).values.filter fun field => field.names.target.isSome).map
      (Member.mk owner))).filterMap
      fun field => field.item.key?

/-- The parameters of a method that have a target name. -/
def parameterOrder (owner : ClassName) (key : MethodKey) : List UInt64 :=
  (sortBy (fun p p' : Parameter 2 => compare p.index p'.index)
    ((table.parametersOf owner key).values.filter fun p => p.names.target.isSome)).map
      Parameter.index

def methodPaths (owner : ClassName) (key : MethodKey) : List Path :=
  .method owner key :: (parameterOrder table owner key).map (.parameter owner key)

def classPaths (owner : ClassName) : List Path :=
  .cls owner
    :: (methodOrder table arrangement owner).flatMap (methodPaths table owner)
    ++ (fieldOrder table arrangement owner).map (.field owner)

/-- Everything that is written, in its order. -/
def paths : List Path :=
  (preorder table arrangement table.classes.keys.length none).flatMap
    (classPaths table arrangement)

/-- (Kept table path) says that the entry at the end of a path is written. -/
def Kept (table : Table 2) : Path → Prop
  | .cls owner => owner ∈ table.classes.keys ∧ table.carries owner = true
  | .field owner key =>
      ∃ field, table.field? owner key = some field ∧ field.names.target.isSome = true
  | .method owner key =>
      ∃ method, table.method? owner key = some method ∧ method.isMapped = true
  | .parameter owner key index =>
      ∃ parameter, table.parameter? owner key index = some parameter
        ∧ parameter.names.target.isSome = true

-----------------------------------------------------------------------------------------
-- Classes
-----------------------------------------------------------------------------------------

variable {table arrangement}

theorem source_eq (coherent : table.Coherent) {owner : ClassName} {cls : Class 2}
    (stored : table.class? owner = some cls)
    : cls.names.source = some owner := by
  rw [Names.source_eq_first?, coherent.cls stored]

theorem mem_classOrder_iff (coherent : table.Coherent) {outer : Option ClassName}
    {owner : ClassName}
    : owner ∈ classOrder table arrangement outer
      ↔ owner ∈ table.classes.keys ∧ table.outer? owner = outer ∧ table.carries owner = true := by
  rw [classOrder, Arrangement.sortClasses, (filterMap_sortBy_perm ..).mem_iff, List.mem_filterMap]
  constructor
  · intro given
    rcases given with ⟨cls, member, named⟩
    obtain ⟨inside, mapped⟩ := List.mem_filter.mp member
    obtain ⟨name, stored, found⟩ := Nesting.mem_inside_iff.mp inside
    obtain rfl := Option.some.inj ((source_eq coherent stored).symm.trans named)
    exact ⟨Table.mem_keys_iff.mpr ⟨cls, stored⟩, found,
      (Nesting.isMapped_iff coherent stored).mp mapped⟩
  · intro given
    rcases given with ⟨listed, found, carried⟩
    obtain ⟨cls, stored⟩ := Table.mem_keys_iff.mp listed
    exact ⟨cls, List.mem_filter.mpr ⟨Nesting.mem_inside_iff.mpr ⟨owner, stored, found⟩,
      (Nesting.isMapped_iff coherent stored).mpr carried⟩, source_eq coherent stored⟩

theorem filterMap_inside (coherent : table.Coherent) (outer : Option ClassName)
    : ((Nesting.ofTable table).inside outer).filterMap (fun cls => cls.names.source)
      = table.classes.keys.filter fun name => table.outer? name = outer := by
  rw [Nesting.inside, Nesting.ofTable, List.filterMap_filterMap, List.filterMap_map,
    OrderedMap.keys, List.filter_map, ← List.filterMap_eq_map, ← List.filterMap_eq_filter,
    List.filterMap_filterMap]
  apply List.filterMap_congr
  intro entry listed
  rcases entry with ⟨name, cls⟩
  have named := source_eq coherent ((table.classes.get?_eq_some_iff name cls).mpr listed)
  by_cases found : table.outer? name = outer
  · simp [found, named]
  · simp [found, Option.guard]

theorem nodup_classOrder (coherent : table.Coherent) (outer : Option ClassName)
    : (classOrder table arrangement outer).Nodup := by
  rw [classOrder, Arrangement.sortClasses, (filterMap_sortBy_perm ..).nodup_iff]
  refine List.Nodup.sublist (List.filter_sublist.filterMap _) ?_
  rw [filterMap_inside coherent]
  exact table.classes.keys_nodup.filter _

/-- No class directly in `outer` is nested in `depth` levels or more. -/
def Enough (table : Table 2) (depth : Nat) (outer : Option ClassName) : Prop :=
  ∀ top ∈ table.classes.keys, table.outer? top = outer → (table.nestedIn top).length < depth

theorem Enough.next {depth : Nat} {outer : Option ClassName}
    (enough : Enough table (depth + 1) outer) {top : ClassName}
    (listed : top ∈ table.classes.keys) (found : table.outer? top = outer)
    : Enough table depth (some top) := by
  intro inner inner_listed inner_found
  have fewer := Table.length_nestedIn_lt_of_outer? inner_listed inner_found
  have bound := enough top listed found
  omega

theorem enough_size (outer : Option ClassName)
    : Enough table table.classes.keys.length outer := fun _ listed _ =>
  Table.length_nestedIn_lt_size listed

/-- Below `outer` stand all classes in it that carry mappings, by induction on the depth. -/
theorem mem_preorder_iff (coherent : table.Coherent) {depth : Nat} {outer : Option ClassName}
    (enough : Enough table depth outer) {owner : ClassName}
    : owner ∈ preorder table arrangement depth outer
      ↔ owner ∈ table.classes.keys ∧ table.carries owner = true ∧ table.Inside outer owner := by
  induction depth generalizing outer with
  | zero =>
      rw [preorder]
      simp only [List.not_mem_nil, false_iff]
      intro given
      rcases given with ⟨listed, _, inside⟩
      obtain ⟨top, _, top_listed, found⟩ := Table.exists_top listed inside
      exact Nat.not_lt_zero _ (enough top top_listed found)
  | succ depth ih =>
      simp only [preorder, List.mem_flatMap, List.mem_cons, mem_classOrder_iff coherent]
      constructor
      · intro given
        rcases given with ⟨top, ⟨top_listed, found, top_carried⟩, rfl | below⟩
        · exact ⟨top_listed, top_carried, found ▸ Table.inside_of_outer?⟩
        · obtain ⟨listed, carried, inside⟩ := (ih (enough.next top_listed found)).mp below
          refine ⟨listed, carried, fun around is_outer => ?_⟩
          have around_top := found.trans is_outer
          refine ⟨Table.mem_keys_of_outer? around_top, ?_⟩
          exact Name.mem_enclosing_of_mem_around (inside top rfl).2
            (Name.mem_around_of_mem_enclosing (Table.mem_enclosing_of_outer? around_top))
      · intro given
        rcases given with ⟨listed, carried, inside⟩
        obtain ⟨top, member, top_listed, found⟩ := Table.exists_top listed inside
        refine ⟨top, ⟨top_listed, found, Table.carries_of_mem_around carried member⟩, ?_⟩
        rcases List.mem_cons.mp member with rfl | further
        · exact Or.inl rfl
        · refine Or.inr ((ih (enough.next top_listed found)).mpr ⟨listed, carried, ?_⟩)
          intro around same
          obtain rfl := Option.some.inj same
          exact ⟨top_listed, further⟩

theorem mem_preorder_none_iff (coherent : table.Coherent) {owner : ClassName}
    : owner ∈ preorder table arrangement table.classes.keys.length none
      ↔ Kept table (.cls owner) := by
  rw [mem_preorder_iff coherent (enough_size none)]
  exact ⟨fun ⟨listed, carried, _⟩ => ⟨listed, carried⟩,
    fun ⟨listed, carried⟩ => ⟨listed, carried, Table.inside_none owner⟩⟩

/-- No class stands twice below `outer`, by induction on the depth. -/
theorem nodup_preorder (coherent : table.Coherent) {depth : Nat} {outer : Option ClassName}
    (enough : Enough table depth outer)
    : (preorder table arrangement depth outer).Nodup := by
  induction depth generalizing outer with
  | zero => exact .nil
  | succ depth ih =>
      have around_of_mem {top : ClassName} (top_listed : top ∈ table.classes.keys)
          (found : table.outer? top = outer) {owner : ClassName}
          (member : owner ∈ top :: preorder table arrangement depth (some top))
          : top ∈ owner.around := by
        rcases List.mem_cons.mp member with rfl | below
        · exact owner.mem_around_self
        · have inside := ((mem_preorder_iff coherent (enough.next top_listed found)).mp below).2.2
          exact Name.mem_around_of_mem_enclosing (inside top rfl).2
      rw [preorder, List.nodup_flatMap]
      constructor
      · intro top member
        obtain ⟨listed, found, _⟩ := (mem_classOrder_iff coherent).mp member
        refine List.nodup_cons.mpr ⟨fun below => ?_, ih (enough.next listed found)⟩
        have inside := ((mem_preorder_iff coherent (enough.next listed found)).mp below).2.2
        exact top.not_mem_enclosing_self (inside top rfl).2
      · refine (nodup_classOrder coherent outer).imp_of_mem ?_
        intro x y mem_x mem_y different owner below_x below_y
        obtain ⟨listed_x, found_x, _⟩ := (mem_classOrder_iff coherent).mp mem_x
        obtain ⟨listed_y, found_y, _⟩ := (mem_classOrder_iff coherent).mp mem_y
        exact different (Table.eq_of_outer?_eq (around_of_mem listed_x found_x below_x)
          (around_of_mem listed_y found_y below_y) listed_x listed_y (found_x.trans found_y.symm))

-----------------------------------------------------------------------------------------
-- Members
-----------------------------------------------------------------------------------------

/-- Sorted methods of a class are stored in the table. -/
theorem exists_of_mem_sortMethods {owner : ClassName} {cls : Class 2}
    (stored : table.class? owner = some cls) {member : Member (Method 2)}
    (sorted
      : member ∈ arrangement.sortMethods
          ((cls.methods.values.filter Method.isMapped).map (Member.mk owner)))
    : ∃ key method, table.method? owner key = some method ∧ member = ⟨owner, method⟩ := by
  obtain ⟨method, kept, rfl⟩ := List.mem_map.mp (List.mem_mergeSort.mp sorted)
  obtain ⟨key, listed⟩ := OrderedMap.mem_values_iff.mp (List.mem_filter.mp kept).1
  exact ⟨key, method, Option.bind_eq_some_iff.mpr ⟨cls, stored, listed⟩, rfl⟩

theorem exists_of_mem_sortFields {owner : ClassName} {cls : Class 2}
    (stored : table.class? owner = some cls) {member : Member (Field 2)}
    (sorted
      : member ∈ arrangement.sortFields
          ((cls.fields.values.filter fun field => field.names.target.isSome).map
            (Member.mk owner)))
    : ∃ key field, table.field? owner key = some field ∧ field.names.target.isSome = true
        ∧ member = ⟨owner, field⟩ := by
  obtain ⟨field, kept, rfl⟩ := List.mem_map.mp (List.mem_mergeSort.mp sorted)
  obtain ⟨among, mapped⟩ := List.mem_filter.mp kept
  obtain ⟨key, listed⟩ := OrderedMap.mem_values_iff.mp among
  exact ⟨key, field, Option.bind_eq_some_iff.mpr ⟨cls, stored, listed⟩, mapped, rfl⟩

theorem methodOrder_perm (owner : ClassName)
    : (methodOrder table arrangement owner).Perm
        (((table.methodsOf owner).values.filter Method.isMapped).filterMap Method.key?) := by
  have moved := filterMap_sortBy_perm arrangement.methods
    (((table.methodsOf owner).values.filter Method.isMapped).map (Member.mk owner))
    fun method => method.item.key?
  rwa [List.filterMap_map] at moved

theorem fieldOrder_perm (owner : ClassName)
    : (fieldOrder table arrangement owner).Perm
        (((table.fieldsOf owner).values.filter fun field =>
          field.names.target.isSome).filterMap Field.key?) := by
  have moved := filterMap_sortBy_perm arrangement.fields
    (((table.fieldsOf owner).values.filter fun field => field.names.target.isSome).map
      (Member.mk owner))
    fun field => field.item.key?
  rwa [List.filterMap_map] at moved

theorem parameterOrder_perm (owner : ClassName) (key : MethodKey)
    : (parameterOrder table owner key).Perm
        (((table.parametersOf owner key).values.filter fun p =>
          p.names.target.isSome).filterMap fun p => some p.index) := by
  rw [List.filterMap_eq_map']
  exact (List.mergeSort_perm _ _).map Parameter.index

theorem mem_methodOrder_iff (coherent : table.Coherent) {owner : ClassName} {key : MethodKey}
    : key ∈ methodOrder table arrangement owner ↔ Kept table (.method owner key) := by
  rw [(methodOrder_perm owner).mem_iff, OrderedMap.mem_filterMap_values_iff]
  · simp only [Table.get?_methodsOf, Kept]
  · intro key method stored
    exact coherent.method_key? (Table.get?_methodsOf ▸ stored)

theorem mem_fieldOrder_iff (coherent : table.Coherent) {owner : ClassName} {key : FieldKey}
    : key ∈ fieldOrder table arrangement owner ↔ Kept table (.field owner key) := by
  rw [(fieldOrder_perm owner).mem_iff, OrderedMap.mem_filterMap_values_iff]
  · simp only [Table.get?_fieldsOf, Kept]
  · intro key field stored
    exact coherent.field_key? (Table.get?_fieldsOf ▸ stored)

theorem mem_parameterOrder_iff (coherent : table.Coherent) {owner : ClassName}
    {key : MethodKey} {index : UInt64}
    : index ∈ parameterOrder table owner key ↔ Kept table (.parameter owner key index) := by
  rw [(parameterOrder_perm owner key).mem_iff, OrderedMap.mem_filterMap_values_iff]
  · simp only [Table.get?_parametersOf, Kept]
  · intro index parameter stored
    rw [coherent.parameter (Table.get?_parametersOf ▸ stored)]

theorem nodup_methodOrder (coherent : table.Coherent) (owner : ClassName)
    : (methodOrder table arrangement owner).Nodup := by
  rw [(methodOrder_perm owner).nodup_iff]
  apply OrderedMap.nodup_filterMap_values
  intro key method stored
  exact coherent.method_key? (Table.get?_methodsOf ▸ stored)

theorem nodup_fieldOrder (coherent : table.Coherent) (owner : ClassName)
    : (fieldOrder table arrangement owner).Nodup := by
  rw [(fieldOrder_perm owner).nodup_iff]
  apply OrderedMap.nodup_filterMap_values
  intro key field stored
  exact coherent.field_key? (Table.get?_fieldsOf ▸ stored)

theorem nodup_parameterOrder (coherent : table.Coherent) (owner : ClassName) (key : MethodKey)
    : (parameterOrder table owner key).Nodup := by
  rw [(parameterOrder_perm owner key).nodup_iff]
  apply OrderedMap.nodup_filterMap_values
  intro index parameter stored
  rw [coherent.parameter (Table.get?_parametersOf ▸ stored)]

-----------------------------------------------------------------------------------------
-- Paths
-----------------------------------------------------------------------------------------

theorem kept_of_isMapped {owner : ClassName} {cls : Class 2}
    (stored : table.class? owner = some cls) (mapped : cls.isMapped = true)
    : Kept table (.cls owner) :=
  ⟨Table.mem_keys_iff.mpr ⟨cls, stored⟩,
    Table.carries_iff.mpr ⟨owner, cls, stored, mapped, owner.mem_around_self⟩⟩

theorem kept_of_method_isMapped {owner : ClassName} {key : MethodKey} {method : Method 2}
    (stored : table.method? owner key = some method) (mapped : method.isMapped = true)
    : Kept table (.cls owner) := by
  obtain ⟨cls, class_stored, listed⟩ := Option.bind_eq_some_iff.mp stored
  apply kept_of_isMapped class_stored
  have member := OrderedMap.mem_values_iff.mpr ⟨key, listed⟩
  simp only [Class.isMapped, Bool.or_eq_true, List.any_eq_true]
  exact Or.inr ⟨method, member, mapped⟩

theorem kept_of_parameter? {owner : ClassName} {key : MethodKey} {index : UInt64}
    {parameter : Parameter 2} (stored : table.parameter? owner key index = some parameter)
    (mapped : parameter.names.target.isSome = true)
    : Kept table (.method owner key) := by
  obtain ⟨method, method_stored, listed⟩ := Option.bind_eq_some_iff.mp stored
  have member := OrderedMap.mem_values_iff.mpr ⟨index, listed⟩
  refine ⟨method, method_stored, ?_⟩
  simp only [Method.isMapped, Bool.or_eq_true, List.any_eq_true]
  exact Or.inr ⟨parameter, member, mapped⟩

theorem Kept.exists_names? {path : Path} (kept : Kept table path)
    : ∃ names, table.names? path = some names := by
  cases path with
  | cls owner =>
      obtain ⟨cls, stored⟩ := Table.mem_keys_iff.mp kept.1
      exact ⟨cls.names, Option.map_eq_some_iff.mpr ⟨cls, stored, rfl⟩⟩
  | field owner key =>
      obtain ⟨field, stored, _⟩ := kept
      exact ⟨field.names, Option.map_eq_some_iff.mpr ⟨field, stored, rfl⟩⟩
  | method owner key =>
      obtain ⟨method, stored, _⟩ := kept
      exact ⟨method.names, Option.map_eq_some_iff.mpr ⟨method, stored, rfl⟩⟩
  | parameter owner key index =>
      obtain ⟨parameter, stored, _⟩ := kept
      exact ⟨parameter.names, Option.map_eq_some_iff.mpr ⟨parameter, stored, rfl⟩⟩

/-- An entry is written with all that its path leads through. -/
theorem Kept.above {path : Path} (kept : Kept table path) {owner : Path}
    (above : owner ∈ path.above)
    : Kept table owner := by
  cases path with
  | cls name => simp [Path.above] at above
  | field name key =>
      obtain rfl := List.mem_singleton.mp above
      obtain ⟨field, stored, mapped⟩ := kept
      obtain ⟨cls, class_stored, listed⟩ := Option.bind_eq_some_iff.mp stored
      apply kept_of_isMapped class_stored
      have member := OrderedMap.mem_values_iff.mpr ⟨key, listed⟩
      simp only [Class.isMapped, Bool.or_eq_true, List.any_eq_true]
      exact Or.inl (Or.inr ⟨field, member, mapped⟩)
  | method name key =>
      obtain rfl := List.mem_singleton.mp above
      obtain ⟨method, stored, mapped⟩ := kept
      exact kept_of_method_isMapped stored mapped
  | parameter name key index =>
      obtain ⟨parameter, stored, mapped⟩ := kept
      have method_kept := kept_of_parameter? stored mapped
      simp only [Path.above, List.mem_cons, List.not_mem_nil, or_false] at above
      rcases above with rfl | rfl
      · obtain ⟨method, method_stored, method_mapped⟩ := method_kept
        exact kept_of_method_isMapped method_stored method_mapped
      · exact method_kept

theorem mem_methodPaths_iff {owner : ClassName} {key : MethodKey} {path : Path}
    : path ∈ methodPaths table owner key
      ↔ path = .method owner key
        ∨ ∃ index ∈ parameterOrder table owner key, path = .parameter owner key index := by
  simp only [methodPaths, List.mem_cons, List.mem_map, eq_comm]

theorem mem_classPaths_iff {owner : ClassName} {path : Path}
    : path ∈ classPaths table arrangement owner
      ↔ path = .cls owner
        ∨ (∃ key ∈ methodOrder table arrangement owner, path ∈ methodPaths table owner key)
        ∨ ∃ key ∈ fieldOrder table arrangement owner, path = .field owner key := by
  simp only [classPaths, List.cons_append, List.mem_cons, List.mem_append, List.mem_flatMap,
    List.mem_map, eq_comm]

theorem methodKey?_of_mem_methodPaths {owner : ClassName} {key : MethodKey} {path : Path}
    (member : path ∈ methodPaths table owner key)
    : path.methodKey? owner = some key := by
  rcases mem_methodPaths_iff.mp member with rfl | ⟨index, _, rfl⟩ <;> simp [Path.methodKey?]

theorem owner_of_mem_classPaths {owner : ClassName} {path : Path}
    (member : path ∈ classPaths table arrangement owner)
    : path.owner = owner := by
  rcases mem_classPaths_iff.mp member with rfl | ⟨key, _, member⟩ | ⟨key, _, rfl⟩
  · rfl
  · rcases mem_methodPaths_iff.mp member with rfl | ⟨index, _, rfl⟩ <;> rfl
  · rfl

theorem mem_paths_iff (coherent : table.Coherent) {path : Path}
    : path ∈ paths table arrangement ↔ Kept table path := by
  rw [paths, List.mem_flatMap]
  constructor
  · intro given
    rcases given with ⟨owner, member, written⟩
    rcases mem_classPaths_iff.mp written with rfl | ⟨key, listed, written⟩ | ⟨key, listed, rfl⟩
    · exact (mem_preorder_none_iff coherent).mp member
    · rcases mem_methodPaths_iff.mp written with rfl | ⟨index, ordered, rfl⟩
      · exact (mem_methodOrder_iff coherent).mp listed
      · exact (mem_parameterOrder_iff coherent).mp ordered
    · exact (mem_fieldOrder_iff coherent).mp listed
  · intro kept
    have class_kept : Kept table (.cls path.owner) := by
      cases path with
      | cls owner => exact kept
      | field | method | parameter => exact kept.above (by simp [Path.above, Path.owner])
    refine ⟨path.owner, (mem_preorder_none_iff coherent).mpr class_kept,
      mem_classPaths_iff.mpr ?_⟩
    cases path with
    | cls owner => exact Or.inl rfl
    | field owner key => exact Or.inr (Or.inr ⟨key, (mem_fieldOrder_iff coherent).mpr kept, rfl⟩)
    | method owner key =>
        exact Or.inr (Or.inl ⟨key, (mem_methodOrder_iff coherent).mpr kept,
          mem_methodPaths_iff.mpr (Or.inl rfl)⟩)
    | parameter owner key index =>
        have method_kept : Kept table (.method owner key) := kept.above (by simp [Path.above])
        exact Or.inr (Or.inl ⟨key, (mem_methodOrder_iff coherent).mpr method_kept,
          mem_methodPaths_iff.mpr
            (Or.inr ⟨index, (mem_parameterOrder_iff coherent).mpr kept, rfl⟩)⟩)

theorem nodup_methodPaths (coherent : table.Coherent) (owner : ClassName) (key : MethodKey)
    : (methodPaths table owner key).Nodup := by
  refine List.nodup_cons.mpr ⟨by simp, ?_⟩
  exact (nodup_parameterOrder coherent owner key).map fun _ _ same => by simpa using same

theorem nodup_classPaths (coherent : table.Coherent) (owner : ClassName)
    : (classPaths table arrangement owner).Nodup := by
  have fields_nodup : ((fieldOrder table arrangement owner).map (Path.field owner)).Nodup :=
    (nodup_fieldOrder coherent owner).map fun _ _ same => by simpa using same
  have methods_nodup
      : ((methodOrder table arrangement owner).flatMap (methodPaths table owner)).Nodup := by
    rw [List.nodup_flatMap]
    refine ⟨fun key _ => nodup_methodPaths coherent owner key, ?_⟩
    refine (nodup_methodOrder coherent owner).imp ?_
    intro key key' different path member member'
    have found := methodKey?_of_mem_methodPaths member
    have found' := methodKey?_of_mem_methodPaths member'
    exact different (Option.some.inj (found.symm.trans found'))
  rw [classPaths, List.cons_append, List.nodup_cons, List.nodup_append]
  refine ⟨?_, methods_nodup, fields_nodup, ?_⟩
  · simp [methodPaths]
  · intro path member other member' same
    obtain ⟨key, _, written⟩ := List.mem_flatMap.mp member
    obtain ⟨key', _, rfl⟩ := List.mem_map.mp member'
    have keyed := methodKey?_of_mem_methodPaths written
    simp [same, Path.methodKey?] at keyed

/-- No entry is written twice. -/
theorem nodup_paths (coherent : table.Coherent) : (paths table arrangement).Nodup := by
  rw [paths, List.nodup_flatMap]
  refine ⟨fun owner _ => nodup_classPaths coherent owner, ?_⟩
  refine (nodup_preorder coherent (enough_size none)).imp ?_
  intro owner owner' different path member member'
  exact different ((owner_of_mem_classPaths member).symm.trans (owner_of_mem_classPaths member'))

end Nested

end NameTables
