import Mathlib.Data.List.Forall2
import NameTables.Format.Record

/-! When taking the fields of a record succeeds, and what it gives.
A record yields names when it has one field for each namespace, and an index is a decimal number
below the bound on words.
-/

namespace NameTables

/-- What is related item by item comes from an item, by induction on the relation. -/
theorem exists_mem_of_forall₂ {α β : Type} {R : α → β → Prop} {items : List α} {results : List β}
    (each : List.Forall₂ R items results) {b : β} (member : b ∈ results)
    : ∃ a ∈ items, R a b := by
  induction each with
  | nil => simp at member
  | cons here _ ih =>
      rcases List.mem_cons.mp member with rfl | later
      · exact ⟨_, List.mem_cons_self, here⟩
      · obtain ⟨a, among, related⟩ := ih later
        exact ⟨a, List.mem_cons_of_mem _ among, related⟩

namespace Outcome

/-- A sequence succeeds when both parts do, whatever they can fail with. -/
theorem bind_eq_ok_iff {ε α β : Type} {first : Except ε α} {next : α → Except ε β} {b : β}
    : first >>= next = .ok b ↔ ∃ a, first = .ok a ∧ next a = .ok b := by
  cases first with
  | error failure => simp [Bind.bind, Except.bind]
  | ok a => simp [Bind.bind, Except.bind]

@[simp]
theorem fail_ne_ok {α : Type} {cause : Cause} {a : α} : fail cause ≠ .ok a := by
  simp [fail]

@[simp]
theorem within_eq_ok_iff {α : Type} {activity : Activity} {outcome : Outcome α} {a : α}
    : outcome.within activity = .ok a ↔ outcome = .ok a := by
  cases outcome <;> simp [within]

/-- A checked result is there when the check passes. -/
theorem check_eq_ok_iff {α : Type} {check : Outcome Unit} {a b : α}
    : (do check; return a : Outcome α) = .ok b ↔ check = .ok () ∧ b = a := by
  rw [bind_eq_ok_iff]
  constructor
  · intro given
    rcases given with ⟨_, checked, same⟩
    exact ⟨checked, (Except.ok.inj same).symm⟩
  · intro given
    rcases given with ⟨checked, rfl⟩
    exact ⟨(), checked, rfl⟩

/-- A list succeeds when each item does, by list induction. -/
theorem mapM_eq_ok_iff {α β : Type} {f : α → Outcome β} {items : List α} {results : List β}
    : items.mapM f = .ok results ↔ List.Forall₂ (fun a b => f a = .ok b) items results := by
  induction items generalizing results with
  | nil =>
      rw [List.mapM_nil, List.forall₂_nil_left_iff]
      exact ⟨fun same => (Except.ok.inj same).symm, fun same => congrArg Except.ok same.symm⟩
  | cons a items ih =>
      rw [List.mapM_cons, List.forall₂_cons_left_iff]
      simp only [bind_eq_ok_iff, ih]
      constructor
      · intro given
        rcases given with ⟨b, first, bs, rest, same⟩
        exact ⟨b, bs, first, rest, (Except.ok.inj same).symm⟩
      · intro given
        rcases given with ⟨b, bs, first, rest, rfl⟩
        exact ⟨b, first, bs, rest, rfl⟩

theorem exists_mapM_eq_ok_iff {α β : Type} {f : α → Outcome β} {items : List α}
    : (∃ results, items.mapM f = .ok results) ↔ ∀ a ∈ items, ∃ b, f a = .ok b := by
  induction items with
  | nil => exact ⟨fun _ => by simp, fun _ => ⟨[], rfl⟩⟩
  | cons a items ih =>
      rw [List.forall_mem_cons, ← ih]
      simp only [mapM_eq_ok_iff, List.forall₂_cons_left_iff]
      constructor
      · intro given
        rcases given with ⟨_, b, bs, first, rest, _⟩
        exact ⟨⟨b, first⟩, bs, rest⟩
      · intro given
        rcases given with ⟨⟨b, first⟩, bs, rest⟩
        exact ⟨b :: bs, b, bs, first, rest, rfl⟩

/-- Outcomes that a function tells are those of the list. -/
theorem eq_map_of_mapM_eq_ok {α β : Type} {f : α → Outcome β} {g : α → β} {items : List α}
    {results : List β} (told : ∀ a b, f a = .ok b → b = g a)
    (succeeds : items.mapM f = .ok results)
    : results = items.map g := by
  have each : List.Forall₂ (fun b a => b = g a) results items :=
    ((mapM_eq_ok_iff.mp succeeds).imp told).flip
  rwa [← List.forall₂_map_right_iff, List.forall₂_eq_eq_eq] at each

end Outcome

/-- Decimal digits, at least one, after an optional plus sign, of a number that fits a word. -/
def IsIndex (text : String) : Prop :=
  ∃ digits : List Char,
    (text.toList = digits ∨ text.toList = '+' :: digits)
    ∧ digits ≠ []
    ∧ (∀ c ∈ digits, c.isDigit = true)
    ∧ Nat.ofDigitChars 10 digits 0 < UInt64.size

theorem addDigit_eq_ok_iff {value value' : Nat} {c : Char}
    : addDigit value c = .ok value'
      ↔ c.isDigit = true ∧ value' = 10 * value + (c.toNat - '0'.toNat)
        ∧ value' < UInt64.size := by
  unfold addDigit
  split
  · next digit =>
    simp only [digit, UInt64.size]
    split
    · next small => grind
    · next large => grind
  · next other => simp [other]

/-- Reading digits one by one gives the number that they write. The bound on the whole number is
one on every part of it, by induction on the digits.
-/
theorem foldlM_addDigit_eq_ok_iff {digits : List Char} {value value' : Nat}
    (small : value < UInt64.size)
    : digits.foldlM addDigit value = .ok value'
      ↔ (∀ c ∈ digits, c.isDigit = true) ∧ value' = Nat.ofDigitChars 10 digits value
        ∧ value' < UInt64.size := by
  induction digits generalizing value with
  | nil =>
      simp only [List.foldlM_nil, Nat.ofDigitChars_nil]
      constructor
      · intro same
        obtain rfl := Except.ok.inj same
        exact ⟨by simp, rfl, small⟩
      · intro given
        rcases given with ⟨_, rfl, _⟩
        rfl
  | cons c digits ih =>
      rw [List.foldlM_cons, List.forall_mem_cons, Nat.ofDigitChars_cons]
      cases next : addDigit value c with
      | error fault =>
          simp only [Bind.bind, Except.bind, reduceCtorEq, false_iff]
          intro given
          rcases given with ⟨⟨digit, _⟩, rfl, bound⟩
          have grows : 10 * value + (c.toNat - '0'.toNat)
              ≤ Nat.ofDigitChars 10 digits (10 * value + (c.toNat - '0'.toNat)) := by
            rw [Nat.ofDigitChars_eq_ofDigitChars_zero]
            have := Nat.le_mul_of_pos_left (10 * value + (c.toNat - '0'.toNat))
              (Nat.pow_pos (n := digits.length) (show 0 < 10 by decide))
            omega
          have added := addDigit_eq_ok_iff.mpr
            ⟨digit, rfl, Nat.lt_of_le_of_lt grows bound⟩
          rw [next] at added
          simp at added
      | ok sum =>
          obtain ⟨digit, rfl, bound⟩ := addDigit_eq_ok_iff.mp next
          simp only [Bind.bind, Except.bind]
          rw [ih bound]
          simp [digit]

theorem indexOfDigits_eq_ok_iff {digits : List Char} {index : UInt64}
    : indexOfDigits digits = .ok index
      ↔ (∀ c ∈ digits, c.isDigit = true)
        ∧ Nat.ofDigitChars 10 digits 0 = index.toNat := by
  have run := @foldlM_addDigit_eq_ok_iff digits 0
  unfold indexOfDigits
  constructor
  · intro read
    cases added : digits.foldlM addDigit 0 with
    | error fault => simp [added] at read
    | ok value =>
        obtain ⟨all, rfl, bound⟩ := (run (by decide)).mp added
        simp only [added, Except.ok.injEq] at read
        subst read
        exact ⟨all, by rw [UInt64.toNat_ofNat_of_lt' bound]⟩
  · intro given
    rcases given with ⟨all, number⟩
    have added := (run (by decide)).mpr ⟨all, rfl, number ▸ index.toNat_lt⟩
    simp [added, number]

/-- An index is read from the digits of its number. -/
theorem parameterIndex_eq_ok_iff {text : String} {index : UInt64}
    : parameterIndex text = .ok index
      ↔ ∃ digits : List Char,
          (text.toList = digits ∨ text.toList = '+' :: digits)
          ∧ digits ≠ []
          ∧ (∀ c ∈ digits, c.isDigit = true)
          ∧ Nat.ofDigitChars 10 digits 0 = index.toNat := by
  unfold parameterIndex
  split
  · next empty => simp [empty]
  · next plus =>
    simp only [plus, reduceCtorEq, false_iff]
    intro given
    rcases given with ⟨digits, chars | chars, nonempty, all, _⟩
    · have := all '+' (by simp [← chars])
      simp at this
    · simp only [List.cons.injEq, true_and] at chars
      exact nonempty chars.symm
  · next digits nonempty signed =>
    rw [indexOfDigits_eq_ok_iff, signed]
    constructor
    · intro given
      rcases given with ⟨all, number⟩
      exact ⟨digits, Or.inr rfl, nonempty, all, number⟩
    · intro given
      rcases given with ⟨digits', same | same, _, all, number⟩
      · have := all '+' (by simp [← same])
        simp at this
      · obtain rfl := (List.cons.inj same).2
        exact ⟨all, number⟩
  · next digits nonempty lone unsigned =>
    rw [indexOfDigits_eq_ok_iff]
    constructor
    · intro given
      rcases given with ⟨all, number⟩
      exact ⟨_, Or.inl rfl, nonempty, all, number⟩
    · intro given
      rcases given with ⟨digits', same | same, _, all, number⟩
      · exact same ▸ ⟨all, number⟩
      · exact absurd same (unsigned digits')

/-- A text is read as some index exactly if it writes one. -/
theorem parameterIndex_isIndex_iff {text : String}
    : (∃ index, parameterIndex text = .ok index) ↔ IsIndex text := by
  constructor
  · intro given
    rcases given with ⟨index, read⟩
    obtain ⟨digits, chars, nonempty, all, number⟩ := parameterIndex_eq_ok_iff.mp read
    exact ⟨digits, chars, nonempty, all, number ▸ index.toNat_lt⟩
  · intro given
    rcases given with ⟨digits, chars, nonempty, all, bound⟩
    refine ⟨.ofNat (Nat.ofDigitChars 10 digits 0), parameterIndex_eq_ok_iff.mpr
      ⟨digits, chars, nonempty, all, ?_⟩⟩
    rw [UInt64.toNat_ofNat_of_lt' bound]

/-- A written index reads back as itself. -/
theorem parameterIndex_toString (index : UInt64)
    : parameterIndex (toString index.toNat) = .ok index := by
  rw [parameterIndex_eq_ok_iff]
  have chars : (toString index.toNat).toList = Nat.toDigits 10 index.toNat := by
    rw [Nat.toString_eq_repr, Nat.toList_repr]
  refine ⟨Nat.toDigits 10 index.toNat, Or.inl chars, Nat.toDigits_ne_nil, ?_,
    Nat.ofDigitChars_ten_toDigits⟩
  intro c member
  exact Nat.isDigit_of_mem_toDigits (by decide) (by decide) member

-----------------------------------------------------------------------------------------
-- Fields of a record
-----------------------------------------------------------------------------------------

/-- A list of the right length is a vector. -/
theorem exists_vector_of_length {α : Type} {n : Nat} {items : List α} (length : items.length = n)
    : ∃ vector : Vector α n, items = vector.toList :=
  ⟨⟨items.toArray, by simpa using length⟩, by simp [Vector.toList]⟩

/-- One name for each of `n` namespaces, the first of them not empty. -/
def Keyed (n : Nat) (names : List String) : Prop :=
  names.length = n ∧ ∃ first rest, names = first :: rest ∧ first ≠ ""

theorem Names.first?_ofTexts {n : Nat} {kind : Kind} (texts : Vector String n)
    : (ofTexts texts : Names n kind).first?
      = texts.toList.head?.bind fun text => if text = "" then none else some ⟨text⟩ := by
  rw [first?, ofTexts, Vector.getElem?_map, ← Vector.getElem?_toList, List.head?_eq_getElem?]
  cases texts.toList[0]? <;> rfl

/-- A line has a record when it is UTF-8. -/
theorem Text.Line.record_eq_ok_iff {line : Text.Line} {record : Record}
    : line.record = .ok record
      ↔ ∃ text, line.text = some text ∧ record = { Row.parse text with line := line.number } := by
  unfold Text.Line.record
  cases line.text with
  | none => simp
  | some text => simp [eq_comm]

namespace Record

variable {n : Nat} {kind : Kind}

theorem fail_ne_ok {α : Type} {record : Record} {what : Malformation} {a : α}
    : record.fail what ≠ .ok a := by
  simp [fail]

theorem take_eq_ok_iff {record rest : Record} {field : String}
    : record.take = .ok (field, rest)
      ↔ record.fields = field :: rest.fields ∧ rest = { record with fields := rest.fields } := by
  unfold take
  split
  · next first others fields =>
    simp only [Except.ok.injEq, Prod.mk.injEq, fields, List.cons.injEq]
    constructor
    · intro given
      rcases given with ⟨rfl, rfl⟩
      exact ⟨⟨rfl, rfl⟩, rfl⟩
    · intro given
      rcases given with ⟨⟨rfl, rfl⟩, same⟩
      exact ⟨rfl, same.symm⟩
  · next fields => simp [fields, fail]

theorem labels_eq_ok_iff {record : Record} {labels : Labels n}
    : record.labels n = .ok labels
      ↔ record.fields = labels.toList ∧ "" ∉ labels.toList := by
  unfold Record.labels
  split
  · next wrong =>
    constructor
    · intro read
      exact absurd read Record.fail_ne_ok
    · intro given
      rcases given with ⟨fields, _⟩
      rw [fields, Labels.toList, vectorOf?_toList] at wrong
      simp at wrong
  · next texts found =>
    have fields := vectorOf?_eq_some_iff.mp found
    rw [fields]
    split
    · next empty =>
      constructor
      · intro read
        exact absurd read Record.fail_ne_ok
      · intro given
        rcases given with ⟨same, nonempty⟩
        exact absurd (same ▸ empty) nonempty
    · next nonempty =>
      constructor
      · intro read
        obtain rfl := Except.ok.inj read
        exact ⟨rfl, nonempty⟩
      · intro given
        rcases given with ⟨same, _⟩
        rw [Vector.toList_inj.mp same]

theorem names_eq_ok_iff {record : Record} {names : Names n kind}
    : record.names n kind = .ok names
      ↔ ∃ texts : Vector String n, record.fields = texts.toList ∧ names = .ofTexts texts := by
  unfold Record.names
  split
  · next wrong =>
    simp only [fail, reduceCtorEq, false_iff]
    intro given
    rcases given with ⟨texts, fields, _⟩
    simp [fields] at wrong
  · next texts found =>
    have fields := vectorOf?_eq_some_iff.mp found
    simp only [Except.ok.injEq, fields]
    constructor
    · rintro rfl
      exact ⟨texts, rfl, rfl⟩
    · intro given
      rcases given with ⟨texts', same, rfl⟩
      rw [Vector.toList_inj.mp same]

theorem keyedNames_eq_ok_iff {record : Record} {name : Name kind} {names : Names n kind}
    : record.keyedNames n kind = .ok (name, names)
      ↔ record.names n kind = .ok names ∧ names.first? = some name := by
  unfold keyedNames
  rw [Outcome.bind_eq_ok_iff]
  constructor
  · intro given
    rcases given with ⟨names', read, keyed⟩
    split at keyed
    · next name' first =>
      simp only [Pure.pure, Except.pure, Except.ok.injEq, Prod.mk.injEq] at keyed
      obtain ⟨rfl, rfl⟩ := keyed
      exact ⟨read, first⟩
    · exact absurd keyed fail_ne_ok
  · intro given
    rcases given with ⟨read, first⟩
    refine ⟨names, read, ?_⟩
    rw [first]
    rfl

/-- Names with a first one are read exactly from as many fields, the first one not empty. -/
theorem keyedNames_keyed_iff {record : Record}
    : (∃ result, record.keyedNames n kind = .ok result) ↔ Keyed n record.fields := by
  constructor
  · intro given
    rcases given with ⟨⟨name, names⟩, read⟩
    obtain ⟨read, first⟩ := keyedNames_eq_ok_iff.mp read
    obtain ⟨texts, fields, rfl⟩ := names_eq_ok_iff.mp read
    rw [Names.first?_ofTexts, ← fields, Option.bind_eq_some_iff] at first
    obtain ⟨text, head, nonempty⟩ := first
    obtain ⟨rest, split⟩ := List.head?_eq_some_iff.mp head
    refine ⟨by simp [fields], text, rest, split, ?_⟩
    rintro rfl
    simp at nonempty
  · intro given
    rcases given with ⟨length, text, rest, fields, nonempty⟩
    obtain ⟨texts, texts_eq⟩ := exists_vector_of_length length
    refine ⟨(⟨text⟩, _), keyedNames_eq_ok_iff.mpr
      ⟨names_eq_ok_iff.mpr ⟨texts, texts_eq, rfl⟩, ?_⟩⟩
    rw [Names.first?_ofTexts, ← texts_eq, fields]
    simp [nonempty]

theorem takeFieldDescriptor_eq_ok_iff {record rest : Record} {descriptor : Option Descriptor}
    : record.takeFieldDescriptor = .ok (descriptor, rest)
      ↔ ∃ text, record.take = .ok (text, rest)
          ∧ descriptor = if text = "" then none else some ⟨text⟩ := by
  unfold takeFieldDescriptor
  rw [Outcome.bind_eq_ok_iff]
  simp only [Pure.pure, Except.pure, Except.ok.injEq, Prod.mk.injEq, Prod.exists]
  constructor
  · intro given
    rcases given with ⟨text, rest', taken, rfl, rfl⟩
    exact ⟨text, taken, rfl⟩
  · intro given
    rcases given with ⟨text, taken, rfl⟩
    exact ⟨text, rest, taken, rfl, rfl⟩

theorem takeMethodDescriptor_eq_ok_iff {record rest : Record} {descriptor : Descriptor}
    : record.takeMethodDescriptor = .ok (descriptor, rest)
      ↔ record.take = .ok (descriptor.text, rest) ∧ descriptor.text ≠ "" := by
  unfold takeMethodDescriptor
  rw [Outcome.bind_eq_ok_iff]
  simp only [Prod.exists]
  constructor
  · intro given
    rcases given with ⟨text, rest', taken, described⟩
    split at described
    · exact absurd described fail_ne_ok
    · next nonempty =>
      simp only [Pure.pure, Except.pure, Except.ok.injEq, Prod.mk.injEq] at described
      obtain ⟨rfl, rfl⟩ := described
      exact ⟨taken, nonempty⟩
  · intro given
    rcases given with ⟨taken, nonempty⟩
    refine ⟨descriptor.text, rest, taken, ?_⟩
    rw [if_neg nonempty]
    rfl

end Record

end NameTables
