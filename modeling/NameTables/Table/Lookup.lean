import NameTables.Table.Path

/-! What is found in a table after a change.
A change is seen at the end of its path, the entries that the path leads through are there, with
the names they had or new ones, and nothing else is touched.
-/

namespace NameTables

variable {n : Nat}

/-- The entries that a path leads through. -/
def Path.above : Path → List Path
  | .cls _ => []
  | .field owner _ => [.cls owner]
  | .method owner _ => [.cls owner]
  | .parameter owner key _ => [.cls owner, .method owner key]

namespace Table

theorem class?_updateClass (table : Table n) (owner other : ClassName)
    (change : Class n → Class n)
    : (table.updateClass owner change).class? other
      = if owner = other then some (change ((table.class? owner).getD (.keyed owner)))
        else table.class? other :=
  OrderedMap.get?_upsert ..

/-- The fields of a class, none if there is no class. -/
def fieldsOf (table : Table n) (owner : ClassName) : OrderedMap FieldKey (Field n) :=
  ((table.class? owner).getD (.keyed owner)).fields

/-- The methods of a class, none if there is no class. -/
def methodsOf (table : Table n) (owner : ClassName) : OrderedMap MethodKey (Method n) :=
  ((table.class? owner).getD (.keyed owner)).methods

theorem field?_eq (table : Table n) (owner : ClassName) (key : FieldKey)
    : table.field? owner key = (table.fieldsOf owner).get? key := by
  cases h : table.class? owner <;> simp [field?, fieldsOf, h, Class.keyed]

theorem method?_eq (table : Table n) (owner : ClassName) (key : MethodKey)
    : table.method? owner key = (table.methodsOf owner).get? key := by
  cases h : table.class? owner <;> simp [method?, methodsOf, h, Class.keyed]

theorem fieldsOf_updateClass (table : Table n) (owner other : ClassName)
    (change : Class n → Class n)
    : (table.updateClass owner change).fieldsOf other
      = if owner = other then (change ((table.class? owner).getD (.keyed owner))).fields
        else table.fieldsOf other := by
  simp only [fieldsOf, class?_updateClass]
  split <;> rfl

theorem methodsOf_updateClass (table : Table n) (owner other : ClassName)
    (change : Class n → Class n)
    : (table.updateClass owner change).methodsOf other
      = if owner = other then (change ((table.class? owner).getD (.keyed owner))).methods
        else table.methodsOf other := by
  simp only [methodsOf, class?_updateClass]
  split <;> rfl

theorem field?_updateField (table : Table n) (owner other : ClassName) (key key' : FieldKey)
    (change : Field n → Field n)
    : (table.updateField owner key change).field? other key'
      = if owner = other ∧ key = key' then
          some (change ((table.field? owner key).getD (.keyed key)))
        else table.field? other key' := by
  simp only [field?_eq, updateField, fieldsOf_updateClass]
  by_cases same : owner = other
  · subst same
    simp [OrderedMap.get?_upsert, fieldsOf]
  · simp [same]

theorem method?_updateMethod (table : Table n) (owner other : ClassName)
    (key key' : MethodKey) (change : Method n → Method n)
    : (table.updateMethod owner key change).method? other key'
      = if owner = other ∧ key = key' then
          some (change ((table.method? owner key).getD (.keyed key)))
        else table.method? other key' := by
  simp only [method?_eq, updateMethod, methodsOf_updateClass]
  by_cases same : owner = other
  · subst same
    simp [OrderedMap.get?_upsert, methodsOf]
  · simp [same]

theorem method?_updateField (table : Table n) (owner other : ClassName) (key : FieldKey)
    (key' : MethodKey) (change : Field n → Field n)
    : (table.updateField owner key change).method? other key' = table.method? other key' := by
  simp only [method?_eq, updateField, methodsOf_updateClass]
  split
  · next same => rw [same]; rfl
  · rfl

theorem field?_updateMethod (table : Table n) (owner other : ClassName) (key : MethodKey)
    (key' : FieldKey) (change : Method n → Method n)
    : (table.updateMethod owner key change).field? other key' = table.field? other key' := by
  simp only [field?_eq, updateMethod, fieldsOf_updateClass]
  split
  · next same => rw [same]; rfl
  · rfl

theorem class?_updateField (table : Table n) (owner other : ClassName) (key : FieldKey)
    (change : Field n → Field n)
    : ((table.updateField owner key change).class? other).map Class.names
      = if owner = other then some ((table.class? owner).getD (.keyed owner)).names
        else (table.class? other).map Class.names := by
  simp only [updateField, class?_updateClass]
  split <;> rfl

theorem class?_updateMethod (table : Table n) (owner other : ClassName) (key : MethodKey)
    (change : Method n → Method n)
    : ((table.updateMethod owner key change).class? other).map Class.names
      = if owner = other then some ((table.class? owner).getD (.keyed owner)).names
        else (table.class? other).map Class.names := by
  simp only [updateMethod, class?_updateClass]
  split <;> rfl

theorem parameter?_updateParameter (table : Table n) (owner other : ClassName)
    (key key' : MethodKey) (index index' : UInt64) (change : Parameter n → Parameter n)
    : (table.updateParameter owner key index change).parameter? other key' index'
      = if owner = other ∧ key = key' ∧ index = index' then
          some (change ((table.parameter? owner key index).getD (.keyed index)))
        else table.parameter? other key' index' := by
  simp only [parameter?, updateParameter, method?_updateMethod]
  by_cases same : owner = other ∧ key = key'
  · obtain ⟨rfl, rfl⟩ := same
    cases h : table.method? owner key <;>
      simp [OrderedMap.get?_upsert, Method.keyed]
  · have other_index : ¬(owner = other ∧ key = key' ∧ index = index') :=
      fun all => same ⟨all.1, all.2.1⟩
    simp [same, other_index]

-----------------------------------------------------------------------------------------
-- Names at the end of any path
-----------------------------------------------------------------------------------------

/-- A change is seen in the names at the end of its path. -/
theorem names?_update_self (table : Table n) (path : Path)
    (change : Names n path.kind → Names n path.kind)
    : (table.update path change).names? path
      = some (change ((table.names? path).getD (freshNames path))) := by
  cases path with
  | cls owner =>
    cases h : table.class? owner <;>
      simp [update, names?, class?_updateClass, h, freshNames, Class.keyed]
  | field owner key =>
    cases h : table.field? owner key <;>
      simp [update, names?, field?_updateField, h, freshNames, Field.keyed]
  | method owner key =>
    cases h : table.method? owner key <;>
      simp [update, names?, method?_updateMethod, h, freshNames, Method.keyed]
  | parameter owner key index =>
    cases h : table.parameter? owner key index <;>
      simp [update, names?, parameter?_updateParameter, h, freshNames, Parameter.keyed]

/-- The entries on the way are there after a change, with the names they had. -/
theorem names?_update_above (table : Table n) {path other : Path} (h : other ∈ path.above)
    (change : Names n path.kind → Names n path.kind)
    : (table.update path change).names? other
      = some ((table.names? other).getD (freshNames other)) := by
  cases path with
  | cls owner => simp [Path.above] at h
  | field owner key =>
    simp only [Path.above, List.mem_singleton] at h
    subst h
    simp only [update, names?, class?_updateField, if_true]
    cases table.class? owner <;> rfl
  | method owner key =>
    simp only [Path.above, List.mem_singleton] at h
    subst h
    simp only [update, names?, class?_updateMethod, if_true]
    cases table.class? owner <;> rfl
  | parameter owner key index =>
    simp only [Path.above, List.mem_cons, List.not_mem_nil, or_false] at h
    rcases h with rfl | rfl
    · simp only [update, updateParameter, names?, class?_updateMethod, if_true]
      cases table.class? owner <;> rfl
    · simp only [update, updateParameter, names?, method?_updateMethod, and_self, if_true]
      cases table.method? owner key <;> rfl

theorem field?_update_cls (table : Table n) (owner other : ClassName)
    (change : Names n .cls → Names n .cls) (key : FieldKey)
    : (table.update (.cls owner) change).field? other key = table.field? other key := by
  simp only [field?_eq, update, fieldsOf_updateClass]
  split
  · next same => rw [← same]; rfl
  · rfl

theorem method?_update_cls (table : Table n) (owner other : ClassName)
    (change : Names n .cls → Names n .cls) (key : MethodKey)
    : (table.update (.cls owner) change).method? other key = table.method? other key := by
  simp only [method?_eq, update, methodsOf_updateClass]
  split
  · next same => rw [← same]; rfl
  · rfl

/-- The parameters of a method stay when its names change. -/
theorem parameter?_update_method (table : Table n) (owner other : ClassName)
    (key key' : MethodKey) (change : Names n .method → Names n .method) (index : UInt64)
    : (table.update (.method owner key) change).parameter? other key' index
      = table.parameter? other key' index := by
  simp only [parameter?, update, method?_updateMethod]
  split
  · next same =>
    obtain ⟨rfl, rfl⟩ := same
    cases h : table.method? owner key <;> simp [Method.keyed]
  · rfl

/-- Nothing off the path is touched by a change. -/
theorem names?_update_of_ne (table : Table n) {path other : Path} (end_ne : other ≠ path)
    (not_above : other ∉ path.above) (change : Names n path.kind → Names n path.kind)
    : (table.update path change).names? other = table.names? other := by
  cases path with
  | cls owner =>
    cases other with
    | cls other =>
      have different : owner ≠ other := fun same => end_ne (same ▸ rfl)
      simp [update, names?, class?_updateClass, different]
    | field => simp only [names?, field?_update_cls]
    | method => simp only [names?, method?_update_cls]
    | parameter => simp only [names?, parameter?, method?_update_cls]
  | field owner key =>
    cases other with
    | cls other =>
      have different : owner ≠ other := fun same => not_above (by simp [Path.above, same])
      simp [update, names?, class?_updateField, different]
    | field other key' =>
      have different : ¬(owner = other ∧ key = key') :=
        fun same => end_ne (by rw [same.1, same.2])
      simp [update, names?, field?_updateField, different]
    | method => simp only [update, names?, method?_updateField]
    | parameter => simp only [update, names?, parameter?, method?_updateField]
  | method owner key =>
    cases other with
    | cls other =>
      have different : owner ≠ other := fun same => not_above (by simp [Path.above, same])
      simp [update, names?, class?_updateMethod, different]
    | field => simp only [update, names?, field?_updateMethod]
    | method other key' =>
      have different : ¬(owner = other ∧ key = key') :=
        fun same => end_ne (by rw [same.1, same.2])
      simp [update, names?, method?_updateMethod, different]
    | parameter => simp only [names?, parameter?_update_method]
  | parameter owner key index =>
    cases other with
    | cls other =>
      have different : owner ≠ other := fun same => not_above (by simp [Path.above, same])
      simp [update, updateParameter, names?, class?_updateMethod, different]
    | field => simp only [update, updateParameter, names?, field?_updateMethod]
    | method other key' =>
      have different : ¬(owner = other ∧ key = key') :=
        fun same => not_above (by simp [Path.above, same.1, same.2])
      simp [update, updateParameter, names?, method?_updateMethod, different]
    | parameter other key' index' =>
      have different : ¬(owner = other ∧ key = key' ∧ index = index') :=
        fun same => end_ne (by rw [same.1, same.2.1, same.2.2])
      simp [update, names?, parameter?_updateParameter, different]

end Table

end NameTables
