import NameTables.Proofs.Projection.Declared
import NameTables.Proofs.Table.OwnDeclarations

/-! Projections that keep all entries apart.
When no two entries move to one key, a projection is the table itself with every named entry under
its new key.
-/

namespace NameTables

variable {n : Nat}

-----------------------------------------------------------------------------------------
-- Maps under new keys
-----------------------------------------------------------------------------------------

namespace OrderedMap

variable {κ κ' α β : Type} [DecidableEq κ']

/-- The values that have a new key under it, none of them if two new keys are the same. -/
def rekeyed (m : OrderedMap κ α) (key? : α → Option κ') (change : α → β) : OrderedMap κ' β :=
  let entries := m.values.filterMap fun a => (key? a).map (·, change a)
  if nodup : (entries.map Prod.fst).Nodup then ⟨entries, nodup⟩ else .empty

variable {m : OrderedMap κ α} {key? : α → Option κ'} {change : α → β}

theorem entries_rekeyed (apart : (m.values.filterMap key?).Nodup)
    : (m.rekeyed key? change).entries
      = m.values.filterMap fun a => (key? a).map (·, change a) := by
  have keys_eq : (m.values.filterMap fun a => (key? a).map (·, change a)).map Prod.fst
      = m.values.filterMap key? := by
    rw [List.map_filterMap]
    congr 1
    funext a
    cases key? a <;> rfl
  rw [rekeyed, dif_pos (keys_eq ▸ apart)]

theorem exists_of_get?_rekeyed {key : κ'} {b : β}
    (found : (m.rekeyed key? change).get? key = some b)
    : ∃ a ∈ m.values, key? a = some key ∧ b = change a := by
  rw [get?_eq_some_iff, rekeyed] at found
  split at found
  · obtain ⟨a, listed, moved⟩ := List.mem_filterMap.mp found
    obtain ⟨_, keyed, same⟩ := Option.map_eq_some_iff.mp moved
    obtain ⟨rfl, rfl⟩ := Prod.mk.inj same
    exact ⟨a, listed, keyed, rfl⟩
  · simp [empty] at found

/-- Nothing is dropped when all values have new keys. -/
theorem values_rekeyed (apart : (m.values.filterMap key?).Nodup)
    (keyed : ∀ a ∈ m.values, (key? a).isSome = true)
    : (m.rekeyed key? change).values = m.values.map change := by
  rw [values, entries_rekeyed apart, List.map_filterMap, ← List.filterMap_eq_map]
  apply List.filterMap_congr
  intro a listed
  obtain ⟨key, found⟩ := Option.isSome_iff_exists.mp (keyed a listed)
  rw [found]
  rfl

end OrderedMap

-----------------------------------------------------------------------------------------
-- Tables under new keys
-----------------------------------------------------------------------------------------

def Parameter.onto (source target : Fin n) (parameter : Parameter n) : Parameter 2 :=
  ⟨parameter.index, parameter.names.onto source target⟩

def Field.moved (rekey : Rekey n) (target : Fin n) (field : Field n) : Field 2 :=
  ⟨field.descriptor.map (Descriptor.renamed rekey.newName),
    field.names.onto rekey.column target⟩

def Method.moved (rekey : Rekey n) (target : Fin n) (method : Method n) : Method 2 :=
  ⟨method.descriptor.renamed rekey.newName, method.names.onto rekey.column target,
    method.parameters.map (.onto rekey.column target)⟩

def Class.moved (rekey : Rekey n) (target : Fin n) (cls : Class n) : Class 2 where
  names := cls.names.onto rekey.column target
  fields := cls.fields.rekeyed rekey.fieldKey? (.moved rekey target)
  methods := cls.methods.rekeyed rekey.methodKey? (.moved rekey target)

/-- What a method declares under a key, with its parameters. -/
def Method.rekeyedAt (owner : ClassName) (key : MethodKey) (method : Method n)
    : List (Declaration n) :=
  ⟨.method owner key, method.names⟩
    :: method.parameters.values.map fun parameter =>
      ⟨.parameter owner key parameter.index, parameter.names⟩

/-- What a class declares under the name `owner`, with its fields and methods. -/
def Class.rekeyedIn (rekey : Rekey n) (owner : ClassName) (cls : Class n) : List (Declaration n) :=
  ⟨.cls owner, cls.names⟩
    :: (cls.fields.values.filterMap fun field =>
        (rekey.fieldKey? field).map fun key => ⟨.field owner key, field.names⟩)
    ++ cls.methods.values.flatMap fun method =>
      (rekey.methodKey? method).toList.flatMap fun key => method.rekeyedAt owner key

theorem Class.filterMap_rekeyed? {rekey : Rekey n} {cls : Class n} {owner : ClassName}
    (owned : cls.names.get rekey.column = some owner)
    : cls.entries.filterMap (Entry.rekeyed? rekey) = cls.rekeyedIn rekey owner := by
  rw [entries, rekeyedIn, List.filterMap_append, List.filterMap_cons]
  have on_method (method : Method n)
      : (Method.entries cls method).filterMap (Entry.rekeyed? rekey)
        = (rekey.methodKey? method).toList.flatMap fun key => method.rekeyedAt owner key := by
    rw [Method.entries, List.filterMap_cons, List.filterMap_map]
    cases keyed : rekey.methodKey? method <;>
      simp [Entry.rekeyed?, Method.rekeyedAt, owned, keyed, Function.comp_def]
  have on_class : Entry.rekeyed? rekey (.cls cls) = some ⟨.cls owner, cls.names⟩ := by
    rw [Entry.rekeyed?, owned]
    rfl
  have on_field (field : Field n)
      : Entry.rekeyed? rekey (.field cls field)
        = (rekey.fieldKey? field).map fun key => ⟨.field owner key, field.names⟩ := by
    rw [Entry.rekeyed?, owned]
    cases rekey.fieldKey? field <;> rfl
  rw [List.filterMap_flatMap, funext on_method, List.filterMap_map, on_class]
  simp only [Function.comp_def, on_field]

/-- A class without a name there declares nothing. -/
theorem Class.filterMap_rekeyed?_of_unowned {rekey : Rekey n} {cls : Class n}
    (unowned : cls.names.get rekey.column = none)
    : cls.entries.filterMap (Entry.rekeyed? rekey) = [] := by
  rw [List.filterMap_eq_nil_iff]
  intro entry member
  simp only [entries, Method.entries, List.cons_append, List.mem_cons, List.mem_append,
    List.mem_map, List.mem_flatMap] at member
  rcases member with rfl | ⟨_, _, rfl⟩ | ⟨_, _, rfl | ⟨_, _, rfl⟩⟩ <;>
    simp [Entry.rekeyed?, unowned]

namespace Table

/-- Entries are declared with their class. -/
theorem rekeyed_eq_flatMap (table : Table n) (source : Fin n)
    : table.rekeyed source
      = table.classes.values.flatMap fun cls =>
          (cls.names.get source).toList.flatMap fun owner =>
            cls.rekeyedIn (.ofTable table source) owner := by
  rw [rekeyed, entries, List.filterMap_flatMap]
  apply List.flatMap_congr
  intro cls _
  cases owned : cls.names.get source with
  | none => exact Class.filterMap_rekeyed?_of_unowned owned
  | some owner =>
      rw [Class.filterMap_rekeyed? owned, Option.toList_some, List.flatMap_singleton]

/-- The entries under their new keys, with two of their names. -/
def moved (table : Table n) (labels : Labels 2) (source target : Fin n) : Table 2 where
  labels := labels
  classes := table.classes.rekeyed (fun cls => cls.names.get source)
    (.moved (.ofTable table source) target)

/-- No two entries move to one key. -/
structure KeysApart (table : Table n) (source : Fin n) : Prop where
  classes : (table.classes.values.filterMap fun cls => cls.names.get source).Nodup
  fields
    : ∀ cls ∈ table.classes.values,
        (cls.fields.values.filterMap (Rekey.ofTable table source).fieldKey?).Nodup
  methods
    : ∀ cls ∈ table.classes.values,
        (cls.methods.values.filterMap (Rekey.ofTable table source).methodKey?).Nodup

/-- Keys are apart when they tell something that tells the items apart. -/
theorem nodup_filterMap_of_nodup_map {α β κ : Type} {told : α → β} {key? : α → Option κ}
    {items : List α} (distinct : (items.map told).Nodup)
    (tells
      : ∀ a ∈ items, ∀ b ∈ items, ∀ key,
          key? a = some key → key? b = some key → told a = told b)
    : (items.filterMap key?).Nodup := by
  rw [List.Nodup, List.pairwise_map] at distinct
  rw [List.Nodup, List.pairwise_filterMap]
  apply distinct.imp_of_mem
  intro a b among among' different key keyed key' keyed' same
  exact different (tells a among b among' key keyed (same ▸ keyed'))

variable {table : Table n} {labels : Labels 2} {source target : Fin n}

/-- Descriptors and indices move with the keys that repeat them. -/
theorem moved_described (described : table.Described)
    : (table.moved labels source target).Described := by
  have on_class {owner : ClassName} {cls' : Class 2}
      (found : (table.moved labels source target).class? owner = some cls')
      : ∃ cls ∈ table.classes.values, cls' = cls.moved (.ofTable table source) target := by
    obtain ⟨cls, listed, _, same⟩ := OrderedMap.exists_of_get?_rekeyed found
    exact ⟨cls, listed, same⟩
  have on_method {owner : ClassName} {key : MethodKey} {method' : Method 2}
      (found : (table.moved labels source target).method? owner key = some method')
      : ∃ method ∈ table.methods,
          (Rekey.ofTable table source).methodKey? method = some key
          ∧ method' = method.moved (.ofTable table source) target := by
    obtain ⟨cls', stored, inside⟩ := Option.bind_eq_some_iff.mp found
    obtain ⟨cls, listed, rfl⟩ := on_class stored
    obtain ⟨method, among, keyed, same⟩ := OrderedMap.exists_of_get?_rekeyed inside
    exact ⟨method, List.mem_flatMap.mpr ⟨cls, listed, among⟩, keyed, same⟩
  constructor
  · intro owner key field' found
    obtain ⟨cls', stored, inside⟩ := Option.bind_eq_some_iff.mp found
    obtain ⟨cls, listed, rfl⟩ := on_class stored
    obtain ⟨field, among, keyed, rfl⟩ := OrderedMap.exists_of_get?_rekeyed inside
    obtain ⟨name, named, rfl⟩ := Option.map_eq_some_iff.mp keyed
    rfl
  · intro owner key method' found
    obtain ⟨method, _, keyed, rfl⟩ := on_method found
    obtain ⟨name, named, rfl⟩ := Option.map_eq_some_iff.mp keyed
    rfl
  · intro owner key index parameter' found
    obtain ⟨method', stored, inside⟩ := Option.bind_eq_some_iff.mp found
    obtain ⟨method, listed, _, rfl⟩ := on_method stored
    obtain ⟨parameter, below, rfl⟩ := Option.map_eq_some_iff.mp
      ((OrderedMap.get?_map ..).symm.trans inside)
    obtain ⟨owner', key', stored'⟩ := mem_methods_iff.mp listed
    have inside : table.parameter? owner' key' index = some parameter := by
      rw [parameter?, stored']
      exact below
    exact described.parameter inside

/-- Parameters are declared under the indices that they repeat. -/
theorem Described.declarations_moved_method (described : table.Described) {method : Method n}
    (listed : method ∈ table.methods) {rekey : Rekey n} (owner : ClassName) (key : MethodKey)
    : (method.moved rekey target).declarations owner key
      = (method.rekeyedAt owner key).map fun declared => declared.onto rekey.column target := by
  obtain ⟨owner', key', stored⟩ := mem_methods_iff.mp listed
  rw [Method.declarations, Method.rekeyedAt, List.map_cons]
  congr 1
  simp only [Method.moved, OrderedMap.map, OrderedMap.values, List.map_map]
  apply List.map_congr_left
  intro entry below
  have inside : table.parameter? owner' key' entry.1 = some entry.2 := by
    rw [parameter?, stored]
    exact (OrderedMap.get?_eq_some_iff _ entry.1 entry.2).mpr below
  simp only [Function.comp_apply]
  rw [described.parameter inside]
  rfl

/-- The moved table declares what the entries declare under their new keys. -/
theorem declarations_moved (described : table.Described) (apart : table.KeysApart source)
    : (table.moved labels source target).declarations
      = (table.rekeyed source).map fun declared => declared.onto source target := by
  let rekey := Rekey.ofTable table source
  rw [declarations, moved, OrderedMap.entries_rekeyed apart.classes, rekeyed_eq_flatMap,
    List.map_flatMap, List.filterMap_eq_flatMap_toList, List.flatMap_assoc]
  apply List.flatMap_congr
  intro cls listed
  cases owned : cls.names.get source with
  | none => rfl
  | some owner =>
      have on_fields : (cls.moved rekey target).fields.entries = _ :=
        OrderedMap.entries_rekeyed (apart.fields cls listed)
      have on_methods : (cls.moved rekey target).methods.entries = _ :=
        OrderedMap.entries_rekeyed (apart.methods cls listed)
      rw [Option.map_some, Option.toList_some, Option.toList_some, List.flatMap_singleton,
        List.flatMap_singleton, Class.rekeyedIn, List.map_append, List.map_cons,
        List.map_filterMap, List.map_flatMap]
      change (cls.moved rekey target).declarations owner = _
      rw [Class.declarations, on_fields, on_methods, List.map_filterMap]
      congr 1
      · congr 2
        funext field
        rw [Option.map_map, Option.map_map]
        rfl
      · rw [List.filterMap_eq_flatMap_toList, List.flatMap_assoc]
        apply List.flatMap_congr
        intro method among
        have listed_method : method ∈ table.methods := List.mem_flatMap.mpr ⟨cls, listed, among⟩
        cases keyed : rekey.methodKey? method with
        | none => rfl
        | some key =>
            simp only [Option.map_some, Option.toList_some, List.flatMap_singleton]
            exact described.declarations_moved_method listed_method owner key

/-- A projection that keeps the entries apart moves them. -/
theorem projection_eq_moved (coherent : table.Coherent) (apart : table.KeysApart source)
    : table.projection labels source target = table.moved labels source target := by
  have declared : (table.moved labels source target).declarations = _ :=
    declarations_moved coherent.described apart
  have moved_coherent : (table.moved labels source target).Coherent := by
    apply (moved_described coherent.described).coherent
    intro path names found
    have member := mem_declarations_iff.mpr found
    rw [declared] at member
    obtain ⟨before, listed, same⟩ := List.mem_map.mp member
    have fits := fits_of_mem_rekeyed listed target
    cases same
    exact fits
  rw [projection, ← declared]
  exact moved_coherent.declareAll_declarations (by decide)

end Table

end NameTables
