import Mathlib.Data.List.Nodup
import NameTables.OrderedMap

/-! Keys and values of ordered maps.
Values can be changed, or dropped, under their keys. When values repeat their keys, a key is as
good as a place in the list of values.
-/

namespace NameTables.OrderedMap

variable {κ α β : Type}

/-- A new value under every key. -/
def map (change : α → β) (m : OrderedMap κ α) : OrderedMap κ β where
  entries := m.entries.map fun (key, a) => (key, change a)
  nodup := by simpa [Function.comp_def] using m.nodup

theorem map_fst_filterMap_sublist (change? : κ → α → Option β) (entries : List (κ × α))
    : ((entries.filterMap fun (key, a) => (change? key a).map (key, ·)).map Prod.fst).Sublist
        (entries.map Prod.fst) := by
  induction entries with
  | nil => exact .slnil
  | cons entry rest ih =>
      cases changed : change? entry.1 entry.2 with
      | none =>
          simp only [List.filterMap_cons, changed, Option.map_none, List.map_cons]
          exact ih.cons entry.1
      | some b =>
          simp only [List.filterMap_cons, changed, Option.map_some, List.map_cons]
          exact ih.cons_cons entry.1

/-- The entries with a new value. -/
def filterMap (m : OrderedMap κ α) (change? : κ → α → Option β) : OrderedMap κ β where
  entries := m.entries.filterMap fun (key, a) => (change? key a).map (key, ·)
  nodup := (map_fst_filterMap_sublist change? m.entries).nodup m.nodup

@[simp]
theorem keys_map (change : α → β) (m : OrderedMap κ α) : (m.map change).keys = m.keys := by
  simp [keys, map, Function.comp_def]

@[simp]
theorem values_map (change : α → β) (m : OrderedMap κ α)
    : (m.map change).values = m.values.map change := by
  simp [values, map, Function.comp_def]

theorem map_congr {m : OrderedMap κ α} {change change' : α → β}
    (same : ∀ a ∈ m.values, change a = change' a)
    : m.map change = m.map change' := by
  apply ext
  apply List.map_congr_left
  intro entry listed
  exact congrArg (Prod.mk entry.1) (same entry.2 (List.mem_map_of_mem listed))

theorem map_id (m : OrderedMap κ α) : (m.map fun a => a) = m :=
  ext (List.map_id m.entries)

/-- A visit that finds something at one item only, by list induction. -/
theorem flatMap_of_unique {γ : Type} {items : List γ} {told : γ → κ}
    (nodup : (items.map told).Nodup) {item : γ} (member : item ∈ items)
    {visit : γ → List β} (nothing : ∀ other ∈ items, told other ≠ told item → visit other = [])
    : items.flatMap visit = visit item := by
  induction items with
  | nil => cases member
  | cons first rest ih =>
      obtain ⟨fresh, nodup⟩ := List.nodup_cons.mp nodup
      obtain ⟨here, later⟩ := List.forall_mem_cons.mp nothing
      rw [List.flatMap_cons]
      rcases List.mem_cons.mp member with rfl | further
      · have rest_eq : rest.flatMap visit = [] := by
          rw [List.flatMap_eq_nil_iff]
          intro other listed
          exact later other listed fun same => fresh (same ▸ List.mem_map_of_mem listed)
        rw [rest_eq, List.append_nil]
      · have different : told first ≠ told item := fun same =>
          fresh (same ▸ List.mem_map_of_mem further)
        rw [here different, List.nil_append, ih nodup further later]

variable [DecidableEq κ]

@[simp]
theorem get?_map (change : α → β) (m : OrderedMap κ α) (key : κ)
    : (m.map change).get? key = (m.get? key).map change := by
  apply Option.ext
  intro b
  simp only [get?_eq_some_iff, Option.map_eq_some_iff, map, List.mem_map, Prod.exists,
    Prod.mk.injEq]
  constructor
  · intro given
    rcases given with ⟨_, a, listed, rfl, changed⟩
    exact ⟨a, listed, changed⟩
  · intro given
    rcases given with ⟨a, listed, changed⟩
    exact ⟨key, a, listed, rfl, changed⟩

theorem get?_filterMap (m : OrderedMap κ α) (change? : κ → α → Option β) (key : κ)
    : (m.filterMap change?).get? key = (m.get? key).bind (change? key) := by
  apply Option.ext
  intro b
  rw [get?_eq_some_iff, Option.bind_eq_some_iff]
  simp only [filterMap, List.mem_filterMap, get?_eq_some_iff]
  constructor
  · intro given
    rcases given with ⟨⟨key', a⟩, listed, changed⟩
    obtain ⟨b', found, same⟩ := Option.map_eq_some_iff.mp changed
    obtain ⟨rfl, rfl⟩ := Prod.mk.inj same
    exact ⟨a, listed, found⟩
  · intro given
    rcases given with ⟨a, listed, found⟩
    exact ⟨(key, a), listed, by simp [found]⟩

/-- What is left of an entry can be told without its owner when owners are dropped only if nothing
of theirs is left.
-/
theorem bind_get?_filterMap {σ τ : Type} {owner? : Option σ} {keep? : σ → Option τ}
    {entriesOf : σ → OrderedMap κ α} {entriesOf' : τ → OrderedMap κ β} {change? : α → Option β}
    (kept
      : ∀ owner owner', keep? owner = some owner'
          → entriesOf' owner' = (entriesOf owner).filterMap fun _ => change?)
    {key : κ}
    (dropped
      : ∀ owner a, owner? = some owner → keep? owner = none
          → (entriesOf owner).get? key = some a → change? a = none)
    : ((owner?.bind keep?).bind fun owner => (entriesOf' owner).get? key)
      = (owner?.bind fun owner => (entriesOf owner).get? key).bind change? := by
  cases owner? with
  | none => rfl
  | some owner =>
      rw [Option.bind_some, Option.bind_some]
      cases decided : keep? owner with
      | some owner' =>
          rw [Option.bind_some, kept owner owner' decided]
          exact get?_filterMap ..
      | none =>
          cases found : (entriesOf owner).get? key with
          | none => rfl
          | some a => exact (dropped owner a rfl decided found).symm

variable {m : OrderedMap κ α}

theorem mem_values_iff {a : α} : a ∈ m.values ↔ ∃ key, m.get? key = some a := by
  simp only [values, List.mem_map, Prod.exists, get?_eq_some_iff, exists_eq_right]

/-- Entries are told by the keys in order and the values under them. -/
theorem entries_eq_filterMap (m : OrderedMap κ α)
    : m.entries = m.keys.filterMap fun key => (m.get? key).map (key, ·) := by
  rw [keys, List.filterMap_map, ← List.filterMap_some (l := m.entries), List.filterMap_filterMap]
  apply List.filterMap_congr
  intro entry listed
  have stored := (m.get?_eq_some_iff entry.1 entry.2).mpr listed
  simp [stored]

theorem ext_get? {m m' : OrderedMap κ α} (keys_eq : m.keys = m'.keys)
    (get?_eq : ∀ key, m.get? key = m'.get? key)
    : m = m' := by
  apply ext
  rw [entries_eq_filterMap, entries_eq_filterMap, keys_eq, funext get?_eq]

-----------------------------------------------------------------------------------------
-- Values that repeat their keys
-----------------------------------------------------------------------------------------

variable {key? : α → Option κ}

/-- Values that repeat their keys list them in order. -/
theorem filterMap_values (keyed : ∀ key a, m.get? key = some a → key? a = some key)
    : m.values.filterMap key? = m.keys := by
  rw [values, keys, List.filterMap_map, ← List.filterMap_eq_map]
  apply List.filterMap_congr
  intro entry listed
  rcases entry with ⟨key, a⟩
  exact keyed key a ((m.get?_eq_some_iff key a).mpr listed)

theorem mem_filterMap_values_iff (keyed : ∀ key a, m.get? key = some a → key? a = some key)
    {keep : α → Bool} {key : κ}
    : key ∈ (m.values.filter keep).filterMap key?
      ↔ ∃ a, m.get? key = some a ∧ keep a = true := by
  rw [List.mem_filterMap]
  constructor
  · intro given
    rcases given with ⟨a, member, same⟩
    obtain ⟨listed, kept⟩ := List.mem_filter.mp member
    obtain ⟨key', stored⟩ := mem_values_iff.mp listed
    obtain rfl := Option.some.inj ((keyed key' a stored).symm.trans same)
    exact ⟨a, stored, kept⟩
  · intro given
    rcases given with ⟨a, stored, kept⟩
    have listed := mem_values_iff.mpr ⟨key, stored⟩
    exact ⟨a, List.mem_filter.mpr ⟨listed, kept⟩, keyed key a stored⟩

theorem nodup_filterMap_values (keyed : ∀ key a, m.get? key = some a → key? a = some key)
    (keep : α → Bool)
    : ((m.values.filter keep).filterMap key?).Nodup := by
  refine List.Nodup.sublist ?_ m.keys_nodup
  rw [← filterMap_values keyed]
  exact List.filter_sublist.filterMap key?

/-- What values repeat of their keys tells the values apart. -/
theorem nodup_map_values {told : α → β} (embed : κ → β) (injective : Function.Injective embed)
    (keyed : ∀ key a, m.get? key = some a → told a = embed key)
    : (m.values.map told).Nodup := by
  have told_eq : m.values.map told = m.keys.map embed := by
    rw [values, keys, List.map_map, List.map_map]
    apply List.map_congr_left
    intro entry listed
    rcases entry with ⟨key, a⟩
    exact keyed key a ((m.get?_eq_some_iff key a).mpr listed)
  rw [told_eq]
  exact m.keys_nodup.map injective

/-- At most one entry has a key, by list induction. -/
theorem map_snd_filter_fst {entries : List (κ × α)} (nodup : (entries.map Prod.fst).Nodup)
    (key : κ)
    : (entries.filter fun entry => entry.1 = key).map Prod.snd
      = (lookup? entries key).toList := by
  induction entries with
  | nil => rfl
  | cons entry rest ih =>
      obtain ⟨fresh, nodup⟩ := List.nodup_cons.mp nodup
      by_cases same : entry.1 = key
      · have none_left : rest.filter (fun entry => entry.1 = key) = [] := by
          rw [List.filter_eq_nil_iff]
          intro other listed
          have different : other.1 ≠ key := fun again =>
            fresh (List.mem_map.mpr ⟨other, listed, again.trans same.symm⟩)
          simpa using different
        simp [lookup?, same, none_left]
      · simpa [lookup?, same] using ih nodup

/-- A visit that finds something under one key only finds what it does there. -/
theorem flatMap_entries_of_unique {entries : List (κ × α)} (nodup : (entries.map Prod.fst).Nodup)
    {key : κ} {visit : κ × α → List β}
    (nothing : ∀ entry ∈ entries, entry.1 ≠ key → visit entry = [])
    : entries.flatMap visit = (lookup? entries key).toList.flatMap fun a => visit (key, a) := by
  cases found : lookup? entries key with
  | none =>
      rw [Option.toList_none, List.flatMap_nil, List.flatMap_eq_nil_iff]
      intro entry listed
      refine nothing entry listed fun same => ?_
      have there := lookup?_isSome_iff.mpr (List.mem_map_of_mem (f := Prod.fst) listed)
      simp [same, found] at there
  | some a =>
      rw [Option.toList_some, List.flatMap_singleton]
      exact flatMap_of_unique nodup ((lookup?_eq_some_iff nodup).mp found) nothing

/-- Of values that repeat their keys, the one stored under a key is the only one with that key. -/
theorem filter_values (keyed : ∀ key a, m.get? key = some a → key? a = some key) (key : κ)
    : (m.values.filter fun a => key? a = some key) = (m.get? key).toList := by
  rw [get?, ← map_snd_filter_fst m.nodup, values, List.filter_map]
  congr 1
  apply List.filter_congr
  intro entry listed
  have repeated := keyed entry.1 entry.2 ((m.get?_eq_some_iff entry.1 entry.2).mpr listed)
  simp [repeated]

end NameTables.OrderedMap
