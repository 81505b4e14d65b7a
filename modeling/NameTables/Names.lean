import NameTables.Failure

/-! The names of one entry and the labels of the namespaces.
A table numbers its namespaces, and each has a label. An entry has at most one name in each.
-/

namespace NameTables

/-- The list as a vector, if it has `n` items. -/
def vectorOf? {α : Type} (n : Nat) (items : List α) : Option (Vector α n) :=
  if h : items.length = n then some ⟨items.toArray, by simpa using h⟩ else none

@[simp]
theorem vectorOf?_toList {α : Type} {n : Nat} (items : Vector α n)
    : vectorOf? n items.toList = some items := by
  simp [vectorOf?, Vector.toList]

theorem vectorOf?_eq_some_iff {α : Type} {n : Nat} {items : List α} {v : Vector α n}
    : vectorOf? n items = some v ↔ items = v.toList := by
  constructor
  · intro h
    unfold vectorOf? at h
    split at h
    · obtain rfl := Option.some.inj h
      rfl
    · simp at h
  · rintro rfl
    exact vectorOf?_toList v

structure Labels (n : Nat) where
  texts : Vector String n
  deriving DecidableEq

namespace Labels

variable {n : Nat}

def toList (labels : Labels n) : List String := labels.texts.toList

/-- Labels must not be empty. -/
def ofTexts (texts : Vector String n) : Outcome (Labels n) :=
  if "" ∈ texts.toList then .fail (.emptyLabel texts.toList) else .ok ⟨texts⟩

/-- The labels of a table with two namespaces. -/
def pair (source target : String) : Outcome (Labels 2) := ofTexts #v[source, target]

/-- The first namespace with a label. -/
def find? (labels : Labels n) (label : String) : Option (Fin n) :=
  (List.finRange n).find? fun i => labels.texts[i] = label

def resolve (labels : Labels n) (label : String) : Outcome (Fin n) :=
  match labels.find? label with
  | some i => .ok i
  | none => .fail (.unknownLabel label labels.toList)

def check (labels : Labels n) (expected : Vector String n) : Outcome Unit :=
  if labels.texts = expected then .ok ()
  else .fail (.otherLabels expected.toList labels.toList)

def set (labels : Labels n) (i : Fin n) (label : String) : Labels n :=
  ⟨labels.texts.set i label⟩

end Labels

/-- The namespace with a number. -/
def namespaceOf (n id : Nat) : Outcome (Fin n) :=
  if h : id < n then .ok ⟨id, h⟩ else .fail (.namespaceOutOfRange id n)

/-- The names of an entry, one slot per namespace. -/
structure Names (n : Nat) (kind : Kind) where
  slots : Vector (Option (Name kind)) n
  deriving DecidableEq

namespace Names

variable {n : Nat} {kind : Kind}

@[ext]
theorem ext {names names' : Names n kind} (h : names.slots = names'.slots)
    : names = names' := by
  cases names
  cases names'
  cases h
  rfl

def get (names : Names n kind) (i : Fin n) : Option (Name kind) := names.slots[i]

def set (names : Names n kind) (i : Fin n) (name : Option (Name kind)) : Names n kind :=
  ⟨names.slots.set i name⟩

def toList (names : Names n kind) : List (Option (Name kind)) := names.slots.toList

def texts (names : Names n kind) : List (Option String) :=
  names.toList.map (·.map Name.text)

@[simp]
theorem get_set_self (names : Names n kind) (i : Fin n) (name : Option (Name kind))
    : (names.set i name).get i = name := by
  simp [get, set]

theorem get_set_of_ne (names : Names n kind) {i j : Fin n} (h : i ≠ j)
    (name : Option (Name kind))
    : (names.set i name).get j = names.get j := by
  have different : i.val ≠ j.val := fun same => h (Fin.ext same)
  simp [get, set, different]

/-- Names are equal when they are in every namespace. -/
theorem ext_get {names names' : Names n kind} (h : ∀ i, names.get i = names'.get i)
    : names = names' :=
  ext (Vector.ext fun i lt => h ⟨i, lt⟩)

/-- No names at all. -/
def blank : Names n kind := ⟨Vector.replicate n none⟩

/-- A name in the first namespace only. -/
def keyed (name : Name kind) : Names n kind :=
  ⟨Vector.ofFn fun i => if i.val = 0 then some name else none⟩

/-- The empty text is no name. -/
def ofTexts (texts : Vector String n) : Names n kind :=
  ⟨texts.map fun text => if text = "" then none else some ⟨text⟩⟩

/-- A name that is there must not be empty. -/
def ofSlots (slots : Vector (Option (Name kind)) n) : Outcome (Names n kind) :=
  let texts := slots.toList.map (·.map Name.text)
  if some "" ∈ texts then .fail (.emptyName kind texts) else .ok ⟨slots⟩

/-- The name in the first namespace. -/
def first? (names : Names n kind) : Option (Name kind) := names.slots[0]?.join

/-- The first name, or why there is none. -/
def requireFirst (names : Names n kind) : Outcome (Name kind) :=
  if n = 0 then .fail .noNamespaces
  else
    match names.first? with
    | some name => .ok name
    | none => .fail (.firstNameAbsent kind names.texts)

/-- Sets a name outside the first namespace, and tells the previous one. -/
def rename (names : Names n kind) (i : Fin n) (name : Option (Name kind))
    : Outcome (Option (Name kind) × Names n kind) :=
  if i.val = 0 then .fail .firstNameFixed
  else .ok (names.get i, names.set i name)

/-- Two names, for a table with two namespaces. -/
def pair (source target : Option (Name kind)) : Names 2 kind := ⟨#v[source, target]⟩

/-- The name that a table with two namespaces maps. -/
def source (names : Names 2 kind) : Option (Name kind) := names.get 0

/-- The name that a table with two namespaces maps to. -/
def target (names : Names 2 kind) : Option (Name kind) := names.get 1

def setTarget (names : Names 2 kind) (name : Option (Name kind)) : Names 2 kind :=
  names.set 1 name

/-- Two names that must not be empty if they are there. -/
def ofPair (source target : Option (Name kind)) : Outcome (Names 2 kind) :=
  ofSlots #v[source, target]

@[simp]
theorem source_pair (a b : Option (Name kind)) : (pair a b).source = a := rfl

@[simp]
theorem target_pair (a b : Option (Name kind)) : (pair a b).target = b := rfl

theorem first?_eq_get (names : Names n kind) (h : 0 < n)
    : names.first? = names.get ⟨0, h⟩ := by
  simp [first?, get, h]

@[simp]
theorem first?_keyed (name : Name kind) (h : 0 < n)
    : (keyed name : Names n kind).first? = some name := by
  simp [first?, keyed, h]

/-- Renaming keeps the first name. -/
theorem first?_of_rename {names names' : Names n kind} {i : Fin n}
    {name previous : Option (Name kind)}
    (h : names.rename i name = .ok (previous, names'))
    : names'.first? = names.first? := by
  unfold rename at h
  split at h
  · simp [Outcome.fail] at h
  · next later =>
    have positive : 0 < n := Nat.lt_of_le_of_lt (Nat.zero_le _) i.isLt
    simp only [Except.ok.injEq, Prod.mk.injEq] at h
    rw [← h.2, first?_eq_get _ positive, first?_eq_get _ positive]
    exact get_set_of_ne _ (fun same => later (congrArg Fin.val same)) _

end Names

end NameTables
