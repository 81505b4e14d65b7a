import NameTables.Arrangement
import NameTables.Proofs.Table.Content

/-! Tables that agree regardless of order.
They have the same labels and the same names at every path. What their members are told by when they
are put in order is the name of the class, the name of the member and its descriptor, and these can
run together.
-/

namespace NameTables

variable {n : Nat}

/-- Under a key both maps have nothing, or values that agree. -/
theorem OrderedMap.get?_cases_of_agree {κ α : Type} [DecidableEq κ] {same : α → α → Bool}
    {m m' : OrderedMap κ α} (agree : m.agree same m' = true) (key : κ)
    : (m.get? key = none ∧ m'.get? key = none)
      ∨ ∃ a a', m.get? key = some a ∧ m'.get? key = some a' ∧ same a a' = true := by
  obtain ⟨keys_iff, agreeing⟩ := agree_iff.mp agree
  cases found : m.get? key with
  | none =>
      have absent := (m.get?_eq_none_iff key).mp found
      exact Or.inl ⟨rfl, (m'.get?_eq_none_iff key).mpr (mt (keys_iff key).mpr absent)⟩
  | some a =>
      have present := (keys_iff key).mp ((m.get?_isSome_iff key).mp (by simp [found]))
      obtain ⟨a', found'⟩ := Option.isSome_iff_exists.mp ((m'.get?_isSome_iff key).mpr present)
      exact Or.inr ⟨a, a', rfl, found', agreeing key a a' found found'⟩

namespace Table

section

variable {table table' : Table n}

theorem labels_of_agree (agree : table.agree table' = true) : table.labels = table'.labels :=
  eq_of_beq (Bool.and_eq_true_iff.mp agree).1

/-- A class that both tables have has the same names and fields in both, and its methods agree. -/
theorem class?_cases_of_agree (agree : table.agree table' = true) (owner : ClassName)
    : (table.class? owner = none ∧ table'.class? owner = none)
      ∨ ∃ cls cls', table.class? owner = some cls ∧ table'.class? owner = some cls'
          ∧ cls.names = cls'.names ∧ (∀ key, cls.fields.get? key = cls'.fields.get? key)
          ∧ cls.methods.agree Method.agree cls'.methods = true := by
  rcases OrderedMap.get?_cases_of_agree (Bool.and_eq_true_iff.mp agree).2 owner
    with absent | ⟨cls, cls', found, found', agreeing⟩
  · exact Or.inl absent
  · rw [Class.agree, Bool.and_eq_true, Bool.and_eq_true, beq_iff_eq, OrderedMap.agree_beq_iff]
      at agreeing
    exact Or.inr ⟨cls, cls', found, found', agreeing.1.1, agreeing.1.2, agreeing.2⟩

/-- A method that both tables have has the same names and parameters in both. -/
theorem method?_cases_of_agree (agree : table.agree table' = true) (owner : ClassName)
    (key : MethodKey)
    : (table.method? owner key = none ∧ table'.method? owner key = none)
      ∨ ∃ method method', table.method? owner key = some method
          ∧ table'.method? owner key = some method' ∧ method.names = method'.names
          ∧ ∀ index, method.parameters.get? index = method'.parameters.get? index := by
  rcases class?_cases_of_agree agree owner
    with ⟨absent, absent'⟩ | ⟨cls, cls', stored, stored', _, _, methods⟩
  · exact Or.inl ⟨by simp [method?, absent], by simp [method?, absent']⟩
  · have found : table.method? owner key = cls.methods.get? key := by simp [method?, stored]
    have found' : table'.method? owner key = cls'.methods.get? key := by simp [method?, stored']
    rw [found, found']
    rcases OrderedMap.get?_cases_of_agree methods key
      with absent | ⟨method, method', listed, listed', agreeing⟩
    · exact Or.inl absent
    · rw [Method.agree, Bool.and_eq_true, Bool.and_eq_true, beq_iff_eq, beq_iff_eq,
        OrderedMap.agree_beq_iff] at agreeing
      exact Or.inr ⟨method, method', listed, listed', agreeing.1.2, agreeing.2⟩

/-- Tables that agree have the same names at every path. -/
theorem names?_of_agree (agree : table.agree table' = true) (path : Path)
    : table.names? path = table'.names? path := by
  cases path with
  | cls owner =>
      rw [names?_cls, names?_cls]
      rcases class?_cases_of_agree agree owner
        with ⟨absent, absent'⟩ | ⟨cls, cls', stored, stored', names_eq, _⟩
      · rw [absent, absent']
      · rw [stored, stored', Option.map_some, Option.map_some, names_eq]
  | field owner key =>
      rw [names?_field, names?_field]
      rcases class?_cases_of_agree agree owner
        with ⟨absent, absent'⟩ | ⟨cls, cls', stored, stored', _, fields_eq, _⟩
      · simp [field?, absent, absent']
      · simp [field?, stored, stored', fields_eq key]
  | method owner key =>
      rw [names?_method, names?_method]
      rcases method?_cases_of_agree agree owner key
        with ⟨absent, absent'⟩ | ⟨method, method', stored, stored', names_eq, _⟩
      · rw [absent, absent']
      · rw [stored, stored', Option.map_some, Option.map_some, names_eq]
  | parameter owner key index =>
      rw [names?_parameter, names?_parameter]
      rcases method?_cases_of_agree agree owner key
        with ⟨absent, absent'⟩ | ⟨method, method', stored, stored', _, parameters_eq⟩
      · simp [parameter?, absent, absent']
      · simp [parameter?, stored, stored', parameters_eq index]

end

-----------------------------------------------------------------------------------------
-- Members that are told apart when they are put in order
-----------------------------------------------------------------------------------------

/-- The fields of all classes, with the keys of their classes. -/
def fieldMembers (table : Table 2) : List (Member (Field 2)) :=
  table.classes.entries.flatMap fun (owner, cls) => cls.fields.values.map (Member.mk owner)

/-- The methods of all classes, with the keys of their classes. -/
def methodMembers (table : Table 2) : List (Member (Method 2)) :=
  table.classes.entries.flatMap fun (owner, cls) => cls.methods.values.map (Member.mk owner)

/-- No two fields have the same text of class and name, and the same descriptor, and no two methods
the same text of class, name and descriptor.
-/
structure MembersApart (table : Table 2) : Prop where
  fields
    : (table.fieldMembers.map fun field => (field.fieldName, field.item.descriptor)).Nodup
  methods
    : (table.methodMembers.map fun method =>
        method.methodName ++ method.item.descriptor.text).Nodup

section

variable {table : Table 2}

theorem mem_fieldMembers {owner : ClassName} {key : FieldKey} {field : Field 2}
    (stored : table.field? owner key = some field)
    : ⟨owner, field⟩ ∈ table.fieldMembers := by
  obtain ⟨cls, class_stored, listed⟩ := Option.bind_eq_some_iff.mp stored
  refine List.mem_flatMap.mpr ⟨(owner, cls), ?_, ?_⟩
  · exact (table.classes.get?_eq_some_iff owner cls).mp class_stored
  · exact List.mem_map_of_mem (OrderedMap.mem_values_iff.mpr ⟨key, listed⟩)

theorem mem_methodMembers {owner : ClassName} {key : MethodKey} {method : Method 2}
    (stored : table.method? owner key = some method)
    : ⟨owner, method⟩ ∈ table.methodMembers := by
  obtain ⟨cls, class_stored, listed⟩ := Option.bind_eq_some_iff.mp stored
  refine List.mem_flatMap.mpr ⟨(owner, cls), ?_, ?_⟩
  · exact (table.classes.get?_eq_some_iff owner cls).mp class_stored
  · exact List.mem_map_of_mem (OrderedMap.mem_values_iff.mpr ⟨key, listed⟩)

theorem Coherent.eq_of_fieldName_eq (coherent : table.Coherent) (apart : table.MembersApart)
    {owner owner' : ClassName} {key key' : FieldKey} {field field' : Field 2}
    (stored : table.field? owner key = some field)
    (stored' : table.field? owner' key' = some field')
    (name_eq : fullMemberName owner (some key.name) = fullMemberName owner' (some key'.name))
    (descriptor_eq : key.descriptor = key'.descriptor)
    : owner = owner' ∧ key = key' := by
  have told_eq : ((⟨owner, field⟩ : Member (Field 2)).fieldName, field.descriptor)
      = ((⟨owner', field'⟩ : Member (Field 2)).fieldName, field'.descriptor) := by
    simp only [Member.fieldName, Names.source_eq_first?, coherent.field stored,
      coherent.field stored', name_eq, descriptor_eq]
  have same := List.inj_on_of_nodup_map apart.fields (mem_fieldMembers stored)
    (mem_fieldMembers stored') told_eq
  obtain ⟨rfl, rfl⟩ := Member.mk.inj same
  exact ⟨rfl, Option.some.inj ((coherent.field_key? stored).symm.trans
    (coherent.field_key? stored'))⟩

theorem Coherent.eq_of_methodName_eq (coherent : table.Coherent) (apart : table.MembersApart)
    {owner owner' : ClassName} {key key' : MethodKey} {method method' : Method 2}
    (stored : table.method? owner key = some method)
    (stored' : table.method? owner' key' = some method')
    (text_eq
      : fullMemberName owner (some key.name) ++ key.descriptor.text
        = fullMemberName owner' (some key'.name) ++ key'.descriptor.text)
    : owner = owner' ∧ key = key' := by
  have told_eq : (⟨owner, method⟩ : Member (Method 2)).methodName ++ method.descriptor.text
      = (⟨owner', method'⟩ : Member (Method 2)).methodName ++ method'.descriptor.text := by
    simp only [Member.methodName, Names.source_eq_first?, coherent.method stored,
      coherent.method stored', text_eq]
  have same := List.inj_on_of_nodup_map apart.methods (mem_methodMembers stored)
    (mem_methodMembers stored') told_eq
  obtain ⟨rfl, rfl⟩ := Member.mk.inj same
  exact ⟨rfl, Option.some.inj ((coherent.method_key? stored).symm.trans
    (coherent.method_key? stored'))⟩

end

end Table

end NameTables
