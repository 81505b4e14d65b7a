/-! Maps that remember the order in which their keys came in.
An entry keeps its place when it is changed, and a new one goes to the end. The laws below
describe each operation by the keys of its result and by what a lookup finds.
-/

namespace NameTables

/-- Entries with pairwise different keys, the oldest first. -/
structure OrderedMap (κ α : Type) where
  entries : List (κ × α)
  nodup : (entries.map Prod.fst).Nodup

namespace OrderedMap

variable {κ α : Type}

/-- Maps are equal when their entries are. -/
@[ext]
theorem ext {m m' : OrderedMap κ α} (h : m.entries = m'.entries)
    : m = m' := by
  cases m
  cases m'
  cases h
  rfl

instance [DecidableEq κ] [DecidableEq α] : DecidableEq (OrderedMap κ α) := fun m m' =>
  decidable_of_iff (m.entries = m'.entries) ⟨ext, congrArg entries⟩

def empty : OrderedMap κ α := ⟨[], .nil⟩

instance : Inhabited (OrderedMap κ α) := ⟨empty⟩

def keys (m : OrderedMap κ α) : List κ := m.entries.map Prod.fst

def values (m : OrderedMap κ α) : List α := m.entries.map Prod.snd

def size (m : OrderedMap κ α) : Nat := m.entries.length

theorem keys_nodup (m : OrderedMap κ α) : m.keys.Nodup := m.nodup

@[simp]
theorem keys_empty : (empty : OrderedMap κ α).keys = [] := rfl

@[simp]
theorem values_empty : (empty : OrderedMap κ α).values = [] := rfl

variable [DecidableEq κ]

-----------------------------------------------------------------------------------------
-- Lookup
-----------------------------------------------------------------------------------------

/-- The value of the first entry under a key. -/
def lookup? : List (κ × α) → κ → Option α
  | [], _ => none
  | (k, a) :: rest, key => if k = key then some a else lookup? rest key

def get? (m : OrderedMap κ α) (key : κ) : Option α := lookup? m.entries key

def contains (m : OrderedMap κ α) (key : κ) : Bool := (m.get? key).isSome

@[simp]
theorem get?_empty (key : κ) : (empty : OrderedMap κ α).get? key = none := rfl

theorem lookup?_isSome_iff {entries : List (κ × α)} {key : κ}
    : (lookup? entries key).isSome ↔ key ∈ entries.map Prod.fst := by
  induction entries with
  | nil => simp [lookup?]
  | cons entry rest ih =>
    by_cases h : entry.1 = key
    · simp [lookup?, h]
    · simp [lookup?, h, ih, Ne.symm h]

theorem lookup?_eq_some_iff {entries : List (κ × α)} (nodup : (entries.map Prod.fst).Nodup)
    {key : κ} {a : α}
    : lookup? entries key = some a ↔ (key, a) ∈ entries := by
  induction entries with
  | nil => simp [lookup?]
  | cons entry rest ih =>
    obtain ⟨k, b⟩ := entry
    rw [List.map_cons, List.nodup_cons] at nodup
    by_cases h : k = key
    · subst h
      have fresh : (k, a) ∉ rest := fun member =>
        nodup.1 (List.mem_map.mpr ⟨(k, a), member, rfl⟩)
      simp [lookup?, fresh, eq_comm]
    · simp [lookup?, h, ih nodup.2, Ne.symm h]

/-- A lookup succeeds exactly on the keys. -/
theorem get?_isSome_iff (m : OrderedMap κ α) (key : κ)
    : (m.get? key).isSome ↔ key ∈ m.keys :=
  lookup?_isSome_iff

/-- A lookup finds exactly the entry under its key. -/
theorem get?_eq_some_iff (m : OrderedMap κ α) (key : κ) (a : α)
    : m.get? key = some a ↔ (key, a) ∈ m.entries :=
  lookup?_eq_some_iff m.nodup

-----------------------------------------------------------------------------------------
-- Changing or adding an entry
-----------------------------------------------------------------------------------------

/-- Applies `change` to the value under a key, or to `fresh` in a new last entry. -/
def upsertEntry (key : κ) (fresh : α) (change : α → α) : List (κ × α) → List (κ × α)
  | [] => [(key, change fresh)]
  | (k, a) :: rest =>
      if k = key then (k, change a) :: rest
      else (k, a) :: upsertEntry key fresh change rest

theorem map_fst_upsertEntry (key : κ) (fresh : α) (change : α → α) (entries : List (κ × α))
    : (upsertEntry key fresh change entries).map Prod.fst
      = if key ∈ entries.map Prod.fst then entries.map Prod.fst
        else entries.map Prod.fst ++ [key] := by
  induction entries with
  | nil => simp [upsertEntry]
  | cons entry rest ih =>
    by_cases h : entry.1 = key
    · simp [upsertEntry, h]
    · by_cases member : key ∈ rest.map Prod.fst
      · rw [if_pos member] at ih
        rw [if_pos (by simp only [List.map_cons, List.mem_cons]; exact Or.inr member)]
        simp [upsertEntry, h, ih]
      · rw [if_neg member] at ih
        rw [if_neg (by
          simp only [List.map_cons, List.mem_cons, not_or]
          exact ⟨Ne.symm h, member⟩)]
        simp [upsertEntry, h, ih]

theorem nodup_upsertEntry (key : κ) (fresh : α) (change : α → α) {entries : List (κ × α)}
    (nodup : (entries.map Prod.fst).Nodup)
    : ((upsertEntry key fresh change entries).map Prod.fst).Nodup := by
  rw [map_fst_upsertEntry]
  split
  · exact nodup
  · next fresh_key =>
    rw [List.nodup_append]
    refine ⟨nodup, by simp, ?_⟩
    intro k member k' same
    rw [List.mem_singleton] at same
    rintro rfl
    exact fresh_key (same ▸ member)

/-- Applies `change` to the value under `key`; a missing entry is made from `fresh` first,
behind all others.
-/
def upsert (m : OrderedMap κ α) (key : κ) (fresh : α) (change : α → α) : OrderedMap κ α :=
  ⟨upsertEntry key fresh change m.entries, nodup_upsertEntry key fresh change m.nodup⟩

/-- No key moves, and only a new one is added. -/
theorem keys_upsert (m : OrderedMap κ α) (key : κ) (fresh : α) (change : α → α)
    : (m.upsert key fresh change).keys
      = if key ∈ m.keys then m.keys else m.keys ++ [key] :=
  map_fst_upsertEntry key fresh change m.entries

theorem lookup?_upsertEntry (key key' : κ) (fresh : α) (change : α → α)
    (entries : List (κ × α))
    : lookup? (upsertEntry key fresh change entries) key'
      = if key = key' then some (change ((lookup? entries key).getD fresh))
        else lookup? entries key' := by
  induction entries with
  | nil => by_cases h : key = key' <;> simp [upsertEntry, lookup?, h]
  | cons entry rest ih =>
    by_cases h : entry.1 = key
    · by_cases same : key = key' <;> simp [upsertEntry, lookup?, h, same]
    · rw [upsertEntry, if_neg h, lookup?, ih, lookup?, lookup?]
      by_cases same : key = key'
      · subst same
        simp [h]
      · simp [same]

/-- The changed entry is found under its key, and every other one as before. -/
theorem get?_upsert (m : OrderedMap κ α) (key key' : κ) (fresh : α) (change : α → α)
    : (m.upsert key fresh change).get? key'
      = if key = key' then some (change ((m.get? key).getD fresh)) else m.get? key' :=
  lookup?_upsertEntry key key' fresh change m.entries

@[simp]
theorem get?_upsert_self (m : OrderedMap κ α) (key : κ) (fresh : α) (change : α → α)
    : (m.upsert key fresh change).get? key = some (change ((m.get? key).getD fresh)) := by
  simp [get?_upsert]

-----------------------------------------------------------------------------------------
-- Agreement regardless of order
-----------------------------------------------------------------------------------------

/-- Both maps have the same keys, with values that agree; the order is ignored. -/
def agree (same : α → α → Bool) (m m' : OrderedMap κ α) : Bool :=
  m.size == m'.size
    && m.entries.all fun (key, a) => (m'.get? key).any (same a)

end OrderedMap

end NameTables
