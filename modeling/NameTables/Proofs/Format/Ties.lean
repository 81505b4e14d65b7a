import Mathlib
import NameTables.Format
import NameTables.Proofs.Flat.Written
import NameTables.Proofs.Format.Records
import NameTables.Proofs.Nested.Sorting
import NameTables.Proofs.Table.Agreement

/-! Members that the usual order does not tell apart.
The order is that of texts, in which the name of a class, the name of a member and the descriptor of
a method follow one another. No character is kept out of these, so different members can have one
text, and such members keep the order in which they are listed. The order of the members in a flat
file is determined exactly if there are none.
-/

namespace NameTables

-----------------------------------------------------------------------------------------
-- Ties in sorted lists
-----------------------------------------------------------------------------------------

section

variable {α : Type} {compare : α → α → Ordering} {items : List α}

/-- A list without repetitions reads differently from behind if it has two items. -/
theorem eq_of_reverse_eq (nodup : items.Nodup) (same : items.reverse = items) {a a' : α}
    (member : a ∈ items) (member' : a' ∈ items)
    : a = a' := by
  cases items with
  | nil => cases member
  | cons first rest =>
      rcases List.eq_nil_or_concat' rest with rfl | ⟨front, last, rfl⟩
      · rw [List.mem_singleton.mp member, List.mem_singleton.mp member']
      · have last_eq : last = first := by simpa using congrArg List.head? same
        have other := (List.nodup_cons.mp nodup).1
        exact absurd (last_eq ▸ List.mem_append_right front List.mem_cons_self) other

/-- No two items compare equal exactly if items that do are the same. -/
theorem pairwise_compare_ne_iff [Std.TransCmp compare] (nodup : items.Nodup)
    : (items.Pairwise fun a a' => compare a a' ≠ .eq)
      ↔ ∀ a ∈ items, ∀ a' ∈ items, compare a a' = .eq → a = a' := by
  constructor
  · intro apart a member a' member' tie
    have symmetric : Std.Symm fun a a' => compare a a' ≠ .eq :=
      ⟨fun _ _ different tie => different (Std.OrientedCmp.eq_symm tie)⟩
    by_contra different
    exact apart.forall member member' different tie
  · intro same
    exact nodup.pairwise_of_forall_ne fun a member a' member' different tie =>
      different (same a member a' member' tie)

/-- Sorting forgets in which order the items came exactly if no two of them compare equal. Of two
that do, the one that comes first stays first, and in the list read from behind that is the other.
-/
theorem sortBy_determined_iff [Std.TransCmp compare] (nodup : items.Nodup)
    : (∀ listed : List α, listed.Perm items → sortBy compare listed = sortBy compare items)
      ↔ items.Pairwise fun a a' => compare a a' ≠ .eq := by
  constructor
  · intro determined
    refine nodup.imp_of_mem ?_
    intro a a' member member' different tie
    have sorted : StablySorted compare items (sortBy compare items) := stablySorted_sortBy items
    have sorted' : StablySorted compare items.reverse (sortBy compare items) :=
      determined items.reverse (List.reverse_perm items) ▸ stablySorted_sortBy items.reverse
    have same := (sorted'.stable a).symm.trans (sorted.stable a)
    rw [List.filter_reverse] at same
    have itself : compare a a = .eq := Std.ReflCmp.compare_self
    exact different (eq_of_reverse_eq (nodup.filter _) same
      (List.mem_filter.mpr ⟨member, by simpa using itself⟩)
      (List.mem_filter.mpr ⟨member', by simpa using tie⟩))
  · intro apart listed perm
    have sorted : StablySorted compare items (sortBy compare items) := stablySorted_sortBy items
    have sorted' : StablySorted compare listed (sortBy compare listed) := stablySorted_sortBy listed
    have perm' : (sortBy compare listed).Perm items := sorted'.perm.trans perm
    refine eq_of_pairwise_of_apart (perm'.nodup_iff.mpr nodup) (sorted.perm.nodup_iff.mpr nodup)
      (fun a => perm'.mem_iff.trans sorted.perm.mem_iff.symm) ?_ sorted'.ordered sorted.ordered
    intro a member a' member' tie
    exact (pairwise_compare_ne_iff nodup).mp apart a (perm'.mem_iff.mp member)
      a' (perm'.mem_iff.mp member') tie

end

-----------------------------------------------------------------------------------------
-- One text of different parts
-----------------------------------------------------------------------------------------

/-- Two separators of one text are the same if neither stands before the other one. -/
theorem separator_eq {α : Type} {sep sep' : α} {front front' rest rest' : List α}
    (same : front ++ sep :: rest = front' ++ sep' :: rest') (absent : sep ∉ front')
    (absent' : sep' ∉ front)
    : sep = sep' := by
  rcases List.append_eq_append_iff.mp same with ⟨gap, longer, cut⟩ | ⟨gap, longer, cut⟩
  · cases gap with
    | nil => exact (List.cons.inj cut).1
    | cons c gap =>
        obtain ⟨rfl, _⟩ := List.cons.inj cut
        exact absurd (longer ▸ List.mem_append_right _ List.mem_cons_self) absent
  · cases gap with
    | nil => exact (List.cons.inj cut).1.symm
    | cons c gap =>
        obtain ⟨rfl, _⟩ := List.cons.inj cut
        exact absurd (longer ▸ List.mem_append_right _ List.mem_cons_self) absent'

/-- (Straddles owner rest owner' rest') says that a class is named like a package of another one,
and that the end of that one's name stands in front of `rest`.
-/
def Straddles (owner : ClassName) (rest : String) (owner' : ClassName) (rest' : String) : Prop :=
  ∃ middle, owner'.text = owner.text ++ "/" ++ middle ∧ rest = middle ++ "/" ++ rest'

theorem Straddles.slash_mem {owner owner' : ClassName} {rest rest' : String}
    (straddle : Straddles owner rest owner' rest')
    : '/' ∈ rest.toList := by
  obtain ⟨middle, _, rfl⟩ := straddle
  simp

/-- A class is not named like a package of itself. -/
theorem Straddles.owner_ne {owner owner' : ClassName} {rest rest' : String}
    (straddle : Straddles owner rest owner' rest')
    : owner ≠ owner' := by
  obtain ⟨middle, longer, _⟩ := straddle
  rintro rfl
  have length_eq := congrArg String.length longer
  simp only [String.length_append] at length_eq
  have slash : "/".length = 1 := rfl
  omega

theorem straddles_iff {owner owner' : ClassName} {rest rest' : String}
    : Straddles owner rest owner' rest'
      ↔ ∃ middle, owner'.text.toList = owner.text.toList ++ '/' :: middle
          ∧ rest.toList = middle ++ '/' :: rest'.toList := by
  constructor
  · intro given
    rcases given with ⟨middle, longer, cut⟩
    exact ⟨middle.toList, by simp [longer], by simp [cut]⟩
  · intro given
    rcases given with ⟨middle, longer, cut⟩
    exact ⟨String.ofList middle, String.toList_inj.mp (by simp [longer]),
      String.toList_inj.mp (by simp [cut])⟩

/-- A text of a class and what follows it belongs to other ones too if they straddle. -/
theorem text_eq_iff {owner owner' : ClassName} {rest rest' : String}
    : owner.text ++ "/" ++ rest = owner'.text ++ "/" ++ rest'
      ↔ (owner = owner' ∧ rest = rest')
        ∨ Straddles owner rest owner' rest'
        ∨ Straddles owner' rest' owner rest := by
  have chars (owner : ClassName) (rest : String)
      : (owner.text ++ "/" ++ rest).toList = owner.text.toList ++ '/' :: rest.toList := by simp
  rw [← String.toList_inj, chars, chars, Text.append_cons_eq_iff, straddles_iff, straddles_iff,
    String.toList_inj, String.toList_inj, Name.ext_iff]

/-- (key.Straddles key') says that the front of the descriptor of `key` stands at the end of the
other name.
-/
def MethodKey.Straddles (key key' : MethodKey) : Prop :=
  ∃ middle, middle ≠ "" ∧ key'.name.text = key.name.text ++ middle
    ∧ key.descriptor.text = middle ++ key'.descriptor.text

theorem MethodKey.Straddles.ne {key key' : MethodKey} (straddle : key.Straddles key')
    : key ≠ key' := by
  obtain ⟨middle, nonempty, longer, _⟩ := straddle
  rintro rfl
  exact nonempty (String.append_eq_left_iff.mp longer.symm)

theorem MethodKey.eq_or_straddles {key key' : MethodKey} {middle : String}
    (longer : key'.name.text = key.name.text ++ middle)
    (cut : key.descriptor.text = middle ++ key'.descriptor.text)
    : key = key' ∨ key.Straddles key' := by
  by_cases empty : middle = ""
  · subst empty
    rw [String.append_empty] at longer
    rw [String.empty_append] at cut
    rcases key with ⟨⟨_⟩, ⟨_⟩⟩
    rcases key' with ⟨⟨_⟩, ⟨_⟩⟩
    cases longer
    cases cut
    exact Or.inl rfl
  · exact Or.inr ⟨middle, empty, longer, cut⟩

/-- Texts that are put together are the same if one of them goes on with the front of another. -/
theorem exists_gap_of_append_eq {text text' rest rest' : String}
    (same : text ++ rest = text' ++ rest')
    : ∃ middle, (text' = text ++ middle ∧ rest = middle ++ rest')
      ∨ (text = text' ++ middle ∧ rest' = middle ++ rest) := by
  rw [← String.toList_inj, String.toList_append, String.toList_append] at same
  rcases List.append_eq_append_iff.mp same with ⟨middle, longer, cut⟩ | ⟨middle, longer, cut⟩
  · exact ⟨String.ofList middle, Or.inl
      ⟨String.toList_inj.mp (by simp [longer]), String.toList_inj.mp (by simp [cut])⟩⟩
  · exact ⟨String.ofList middle, Or.inr
      ⟨String.toList_inj.mp (by simp [longer]), String.toList_inj.mp (by simp [cut])⟩⟩

/-- A text of a method without its class belongs to other ones too if they straddle. -/
theorem MethodKey.text_eq_iff {key key' : MethodKey}
    : key.name.text ++ key.descriptor.text = key'.name.text ++ key'.descriptor.text
      ↔ key = key' ∨ key.Straddles key' ∨ key'.Straddles key := by
  constructor
  · intro same
    obtain ⟨middle, ⟨longer, cut⟩ | ⟨longer, cut⟩⟩ := exists_gap_of_append_eq same
    · exact (eq_or_straddles longer cut).imp_right Or.inl
    · exact (eq_or_straddles longer cut).imp Eq.symm Or.inr
  · intro given
    rcases given with rfl | ⟨middle, _, longer, cut⟩ | ⟨middle, _, longer, cut⟩
    · rfl
    · rw [longer, cut, String.append_assoc]
    · rw [longer, cut, String.append_assoc]

-----------------------------------------------------------------------------------------
-- Members with one place
-----------------------------------------------------------------------------------------

namespace Arrangement

theorem byName_fields_tie_iff {field field' : Member (Field 2)}
    : byName.fields field field' = .eq
      ↔ field.fieldName = field'.fieldName ∧ field.item.descriptor = field'.item.descriptor := by
  simp only [byName, Ordering.then_eq_eq, Std.LawfulEqCmp.compare_eq_iff_eq]

theorem byName_methods_tie_iff {method method' : Member (Method 2)}
    : byName.methods method method' = .eq
      ↔ method.methodName ++ method.item.descriptor.text
        = method'.methodName ++ method'.item.descriptor.text := by
  simp only [byName, Std.LawfulEqCmp.compare_eq_iff_eq]

end Arrangement

namespace Table

variable {table : Table 2} {owner owner' : ClassName}

theorem Coherent.byName_fields_eq_iff (coherent : table.Coherent) {key key' : FieldKey}
    {field field' : Field 2} (stored : table.field? owner key = some field)
    (stored' : table.field? owner' key' = some field')
    : Arrangement.byName.fields ⟨owner, field⟩ ⟨owner', field'⟩ = .eq
      ↔ (owner = owner' ∧ key = key')
        ∨ key.descriptor = key'.descriptor
          ∧ (Straddles owner key.name.text owner' key'.name.text
            ∨ Straddles owner' key'.name.text owner key.name.text) := by
  obtain ⟨named, described⟩ := coherent.field stored
  obtain ⟨named', described'⟩ := coherent.field stored'
  have key_eq_iff : key = key'
      ↔ key.name.text = key'.name.text ∧ key.descriptor = key'.descriptor := by
    rw [← Name.ext_iff, FieldKey.mk.injEq key.name]
  rw [Arrangement.byName_fields_tie_iff]
  simp only [Member.fieldName, Names.source_eq_first?, named, named', described, described',
    fullMemberName, Option.map_some, Option.getD_some, text_eq_iff, key_eq_iff]
  tauto

theorem Coherent.byName_methods_eq_iff (coherent : table.Coherent) {key key' : MethodKey}
    {method method' : Method 2} (stored : table.method? owner key = some method)
    (stored' : table.method? owner' key' = some method')
    : Arrangement.byName.methods ⟨owner, method⟩ ⟨owner', method'⟩ = .eq
      ↔ (owner = owner' ∧ (key = key' ∨ key.Straddles key' ∨ key'.Straddles key))
        ∨ Straddles owner (key.name.text ++ key.descriptor.text)
            owner' (key'.name.text ++ key'.descriptor.text)
        ∨ Straddles owner' (key'.name.text ++ key'.descriptor.text)
            owner (key.name.text ++ key.descriptor.text) := by
  obtain ⟨named, described⟩ := coherent.method stored
  obtain ⟨named', described'⟩ := coherent.method stored'
  have text_eq (owner : ClassName) (key : MethodKey)
      : fullMemberName owner (some key.name) ++ key.descriptor.text
        = owner.text ++ "/" ++ (key.name.text ++ key.descriptor.text) := String.append_assoc
  rw [Arrangement.byName_methods_tie_iff]
  simp only [Member.methodName, Names.source_eq_first?, named, named', described, described']
  rw [text_eq, text_eq, text_eq_iff, MethodKey.text_eq_iff]

-----------------------------------------------------------------------------------------
-- Delimited names
-----------------------------------------------------------------------------------------

/-- No name of a member has a slash, and for methods the first `(` is the one that the descriptor
begins with. The names and descriptors in class files are like that.
-/
structure Delimited (table : Table 2) : Prop where
  field
    : ∀ {owner : ClassName} {key : FieldKey} {field : Field 2},
        table.field? owner key = some field → '/' ∉ key.name.text.toList
  method
    : ∀ {owner : ClassName} {key : MethodKey} {method : Method 2},
        table.method? owner key = some method
        → '/' ∉ key.name.text.toList ∧ '(' ∉ key.name.text.toList ∧ '(' ∉ owner.text.toList
          ∧ key.descriptor.text.toList.head? = some '('

theorem Delimited.field_eq_of_tie (delimited : table.Delimited) (coherent : table.Coherent)
    {key key' : FieldKey} {field field' : Field 2} (stored : table.field? owner key = some field)
    (stored' : table.field? owner' key' = some field')
    (tie : Arrangement.byName.fields ⟨owner, field⟩ ⟨owner', field'⟩ = .eq)
    : owner = owner' ∧ key = key' := by
  rcases (coherent.byName_fields_eq_iff stored stored').mp tie with same | ⟨_, straddle | straddle⟩
  · exact same
  · exact absurd straddle.slash_mem (delimited.field stored)
  · exact absurd straddle.slash_mem (delimited.field stored')

/-- No descriptor begins in a name. -/
theorem Delimited.not_straddles (delimited : table.Delimited) {key key' : MethodKey}
    {method method' : Method 2} (stored : table.method? owner key = some method)
    (stored' : table.method? owner' key' = some method')
    : ¬key.Straddles key' := by
  intro straddle
  obtain ⟨middle, nonempty, longer, cut⟩ := straddle
  obtain ⟨_, _, _, begins⟩ := delimited.method stored
  obtain ⟨_, no_paren, _, _⟩ := delimited.method stored'
  obtain ⟨c, rest, chars⟩ := List.exists_cons_of_ne_nil (mt String.toList_eq_nil_iff.mp nonempty)
  obtain rfl : c = '(' := by simpa [cut, chars] using begins
  exact no_paren (by simp [longer, chars])

/-- The slash that ends the name of a class stands before any `(`. -/
theorem Delimited.not_straddles_classes (delimited : table.Delimited) {key key' : MethodKey}
    {method method' : Method 2} (stored : table.method? owner key = some method)
    (stored' : table.method? owner' key' = some method')
    : ¬Straddles owner (key.name.text ++ key.descriptor.text)
        owner' (key'.name.text ++ key'.descriptor.text) := by
  intro straddle
  obtain ⟨middle, longer, cut⟩ := straddles_iff.mp straddle
  obtain ⟨no_slash, _, _, begins⟩ := delimited.method stored
  obtain ⟨_, _, no_paren, _⟩ := delimited.method stored'
  obtain ⟨rest, chars⟩ := List.head?_eq_some_iff.mp begins
  rw [longer, List.mem_append, List.mem_cons, not_or, not_or] at no_paren
  rw [String.toList_append, chars] at cut
  exact absurd (separator_eq cut no_paren.2.2 no_slash) (by decide)

theorem Delimited.method_eq_of_tie (delimited : table.Delimited) (coherent : table.Coherent)
    {key key' : MethodKey} {method method' : Method 2}
    (stored : table.method? owner key = some method)
    (stored' : table.method? owner' key' = some method')
    (tie : Arrangement.byName.methods ⟨owner, method⟩ ⟨owner', method'⟩ = .eq)
    : owner = owner' ∧ key = key' := by
  rcases (coherent.byName_methods_eq_iff stored stored').mp tie
    with ⟨owner_eq, key_eq | straddle | straddle⟩ | straddle | straddle
  · exact ⟨owner_eq, key_eq⟩
  · exact absurd straddle (delimited.not_straddles stored stored')
  · exact absurd straddle (delimited.not_straddles stored' stored)
  · exact absurd straddle (delimited.not_straddles_classes stored stored')
  · exact absurd straddle (delimited.not_straddles_classes stored' stored)

/-- What tells the class and the key of a member is different for all members. -/
theorem nodup_map_members {κ α β : Type} [DecidableEq κ] (entriesOf : Class 2 → OrderedMap κ α)
    {told : Member α → β}
    (apart
      : ∀ owner cls owner' cls' key a key' a',
          table.class? owner = some cls → (entriesOf cls).get? key = some a
          → table.class? owner' = some cls' → (entriesOf cls').get? key' = some a'
          → told ⟨owner, a⟩ = told ⟨owner', a'⟩ → owner = owner' ∧ key = key')
    : ((table.classes.entries.flatMap fun (owner, cls) =>
        (entriesOf cls).values.map (Member.mk owner)).map told).Nodup := by
  rw [List.map_flatMap, List.nodup_flatMap]
  constructor
  · rintro ⟨owner, cls⟩ listed
    have stored := (table.classes.get?_eq_some_iff owner cls).mpr listed
    simp only [OrderedMap.values, List.map_map]
    refine List.Nodup.map_on ?_ (List.Nodup.of_map Prod.fst (entriesOf cls).nodup)
    rintro ⟨key, a⟩ member ⟨key', a'⟩ member' same
    have found := ((entriesOf cls).get?_eq_some_iff key a).mpr member
    have found' := ((entriesOf cls).get?_eq_some_iff key' a').mpr member'
    obtain ⟨_, rfl⟩ := apart owner cls owner cls key a key' a' stored found stored found' same
    rw [Option.some.inj (found.symm.trans found')]
  · refine (List.pairwise_map.mp table.classes.nodup).imp_of_mem ?_
    rintro ⟨owner, cls⟩ ⟨owner', cls'⟩ listed listed' different place member member'
    simp only [List.map_map, List.mem_map, OrderedMap.mem_values_iff] at member member'
    obtain ⟨a, ⟨key, found⟩, rfl⟩ := member
    obtain ⟨a', ⟨key', found'⟩, same⟩ := member'
    have stored := (table.classes.get?_eq_some_iff owner cls).mpr listed
    have stored' := (table.classes.get?_eq_some_iff owner' cls').mpr listed'
    exact different (apart owner cls owner' cls' key a key' a' stored found stored' found'
      same.symm).1

/-- Such members are told apart, so that a table is written in one way however it was made. -/
theorem Delimited.membersApart (delimited : table.Delimited) (coherent : table.Coherent)
    : table.MembersApart := by
  constructor
  · apply nodup_map_members Class.fields
    intro owner cls owner' cls' key field key' field' stored listed stored' listed' same
    exact delimited.field_eq_of_tie coherent
      (Option.bind_eq_some_iff.mpr ⟨cls, stored, listed⟩)
      (Option.bind_eq_some_iff.mpr ⟨cls', stored', listed'⟩)
      (Arrangement.byName_fields_tie_iff.mpr (Prod.mk.inj same))
  · apply nodup_map_members Class.methods
    intro owner cls owner' cls' key method key' method' stored listed stored' listed' same
    exact delimited.method_eq_of_tie coherent
      (Option.bind_eq_some_iff.mpr ⟨cls, stored, listed⟩)
      (Option.bind_eq_some_iff.mpr ⟨cls', stored', listed'⟩)
      (Arrangement.byName_methods_tie_iff.mpr same)

-----------------------------------------------------------------------------------------
-- The order of listed members
-----------------------------------------------------------------------------------------

/-- The usual order puts different members in one place exactly if they straddle. So the members of
a listing, be it that of a whole flat file or that of one class, come in one order however they are
listed exactly if no two of them have one place.
-/
theorem Coherent.byName_ties (coherent : table.Coherent)
    : (∀ {owner owner' : ClassName} {key key' : FieldKey} {field field' : Field 2},
        table.field? owner key = some field → table.field? owner' key' = some field' →
        (Arrangement.byName.fields ⟨owner, field⟩ ⟨owner', field'⟩ = .eq
          ↔ (owner = owner' ∧ key = key')
            ∨ key.descriptor = key'.descriptor
              ∧ (Straddles owner key.name.text owner' key'.name.text
                ∨ Straddles owner' key'.name.text owner key.name.text)))
      ∧ (∀ {owner owner' : ClassName} {key key' : MethodKey} {method method' : Method 2},
        table.method? owner key = some method → table.method? owner' key' = some method' →
        (Arrangement.byName.methods ⟨owner, method⟩ ⟨owner', method'⟩ = .eq
          ↔ (owner = owner' ∧ (key = key' ∨ key.Straddles key' ∨ key'.Straddles key))
            ∨ Straddles owner (key.name.text ++ key.descriptor.text)
                owner' (key'.name.text ++ key'.descriptor.text)
            ∨ Straddles owner' (key'.name.text ++ key'.descriptor.text)
                owner (key.name.text ++ key.descriptor.text)))
      ∧ (∀ listed : List (Member (Field 2)), listed.Nodup →
        ((∀ listed', listed'.Perm listed →
            Arrangement.byName.sortFields listed' = Arrangement.byName.sortFields listed)
          ↔ listed.Pairwise fun field field' =>
            Arrangement.byName.fields field field' ≠ .eq))
      ∧ ∀ listed : List (Member (Method 2)), listed.Nodup →
        ((∀ listed', listed'.Perm listed →
            Arrangement.byName.sortMethods listed' = Arrangement.byName.sortMethods listed)
          ↔ listed.Pairwise fun method method' =>
            Arrangement.byName.methods method method' ≠ .eq) :=
  ⟨coherent.byName_fields_eq_iff, coherent.byName_methods_eq_iff,
    fun _ => sortBy_determined_iff, fun _ => sortBy_determined_iff⟩

/-- Two fields with one text, and two methods of a class with one text. -/
def straddlingMembers : List (Declaration 2) :=
  [⟨.field ⟨"a"⟩ ⟨⟨"b/c"⟩, some ⟨"I"⟩⟩, .pair (some ⟨"b/c"⟩) (some ⟨"x"⟩)⟩,
    ⟨.field ⟨"a/b"⟩ ⟨⟨"c"⟩, some ⟨"I"⟩⟩, .pair (some ⟨"c"⟩) (some ⟨"y"⟩)⟩,
    ⟨.method ⟨"a/b"⟩ ⟨⟨"m"⟩, ⟨"n()V"⟩⟩, .pair (some ⟨"m"⟩) (some ⟨"run"⟩)⟩,
    ⟨.method ⟨"a/b"⟩ ⟨⟨"mn"⟩, ⟨"()V"⟩⟩, .pair (some ⟨"mn"⟩) (some ⟨"stop"⟩)⟩]

def straddling : Table 2 := (Table.empty ⟨#v["compiled", "source"]⟩).declareAll straddlingMembers

/-- The same members, declared from behind. -/
def straddlingBack : Table 2 :=
  (Table.empty ⟨#v["compiled", "source"]⟩).declareAll straddlingMembers.reverse

theorem straddling_coherent : straddling.Coherent :=
  declareAll_coherent _ (by decide) (by
    simp [straddlingMembers, Path.Fits, Names.first?, Names.pair])

theorem straddlingBack_coherent : straddlingBack.Coherent :=
  declareAll_coherent _ (by decide) (by
    simp [straddlingMembers, Path.Fits, Names.first?, Names.pair])

theorem fieldMembers_straddling
    : straddling.fieldMembers
      = [⟨⟨"a"⟩, ⟨some ⟨"I"⟩, .pair (some ⟨"b/c"⟩) (some ⟨"x"⟩)⟩⟩,
        ⟨⟨"a/b"⟩, ⟨some ⟨"I"⟩, .pair (some ⟨"c"⟩) (some ⟨"y"⟩)⟩⟩] :=
  rfl

theorem methodMembers_straddling
    : straddling.methodMembers
      = [⟨⟨"a/b"⟩, ⟨⟨"n()V"⟩, .pair (some ⟨"m"⟩) (some ⟨"run"⟩), .empty⟩⟩,
        ⟨⟨"a/b"⟩, ⟨⟨"()V"⟩, .pair (some ⟨"mn"⟩) (some ⟨"stop"⟩), .empty⟩⟩] :=
  rfl

theorem byName_ties_straddling
    : straddling.Coherent
      ∧ ¬(∀ listed, listed.Perm straddling.fieldMembers →
          Arrangement.byName.sortFields listed
            = Arrangement.byName.sortFields straddling.fieldMembers)
      ∧ ¬(∀ listed, listed.Perm straddling.methodMembers →
          Arrangement.byName.sortMethods listed
            = Arrangement.byName.sortMethods straddling.methodMembers)
      ∧ ∀ listed, listed.Perm (straddling.fieldMembers.take 1) →
          Arrangement.byName.sortFields listed
            = Arrangement.byName.sortFields (straddling.fieldMembers.take 1) := by
  obtain ⟨fields, methods, sorted_fields, sorted_methods⟩ := straddling_coherent.byName_ties
  have field_stored : straddling.field? ⟨"a"⟩ ⟨⟨"b/c"⟩, some ⟨"I"⟩⟩
      = some ⟨some ⟨"I"⟩, .pair (some ⟨"b/c"⟩) (some ⟨"x"⟩)⟩ := rfl
  have field_stored' : straddling.field? ⟨"a/b"⟩ ⟨⟨"c"⟩, some ⟨"I"⟩⟩
      = some ⟨some ⟨"I"⟩, .pair (some ⟨"c"⟩) (some ⟨"y"⟩)⟩ := rfl
  have method_stored : straddling.method? ⟨"a/b"⟩ ⟨⟨"m"⟩, ⟨"n()V"⟩⟩
      = some ⟨⟨"n()V"⟩, .pair (some ⟨"m"⟩) (some ⟨"run"⟩), .empty⟩ := rfl
  have method_stored' : straddling.method? ⟨"a/b"⟩ ⟨⟨"mn"⟩, ⟨"()V"⟩⟩
      = some ⟨⟨"()V"⟩, .pair (some ⟨"mn"⟩) (some ⟨"stop"⟩), .empty⟩ := rfl
  have fields_tie := (fields field_stored field_stored').mpr
    (Or.inr ⟨rfl, Or.inl ⟨"b", by decide, by decide⟩⟩)
  have methods_tie := (methods method_stored method_stored').mpr
    (Or.inl ⟨rfl, Or.inr (Or.inl ⟨"n", by decide, by decide, by decide⟩)⟩)
  rw [fieldMembers_straddling, methodMembers_straddling]
  refine ⟨straddling_coherent, ?_, ?_, ?_⟩
  · intro determined
    have apart := (sorted_fields _ (by simp)).mp determined
    exact (List.pairwise_cons.mp apart).1 _ List.mem_cons_self fields_tie
  · intro determined
    have apart := (sorted_methods _ (by simp)).mp determined
    exact (List.pairwise_cons.mp apart).1 _ List.mem_cons_self methods_tie
  · exact (sorted_fields _ (by simp)).mpr (List.pairwise_singleton _ _)

/-- The lines of members with one text stand in the order in which these are declared. -/
theorem body_straddling
    : Flat.body straddling .byName
        = [⟨0, "FIELD", ["a", "I", "b/c", "x"]⟩, ⟨0, "FIELD", ["a/b", "I", "c", "y"]⟩,
          ⟨0, "METHOD", ["a/b", "n()V", "m", "run"]⟩, ⟨0, "METHOD", ["a/b", "()V", "mn", "stop"]⟩]
      ∧ Flat.body straddlingBack .byName
        = [⟨0, "FIELD", ["a/b", "I", "c", "y"]⟩, ⟨0, "FIELD", ["a", "I", "b/c", "x"]⟩,
          ⟨0, "METHOD", ["a/b", "()V", "mn", "stop"]⟩,
          ⟨0, "METHOD", ["a/b", "n()V", "m", "run"]⟩] := by
  constructor <;> cbv

/-- Different members compare equal, and tables with the same entries are written differently. -/
theorem not_byName_tells_straddling
    : straddling.Coherent
      ∧ (∃ field ∈ straddling.fieldMembers, ∃ field' ∈ straddling.fieldMembers,
          Arrangement.byName.fields field field' = .eq ∧ field.owner ≠ field'.owner)
      ∧ (∃ method ∈ straddling.methodMembers, ∃ method' ∈ straddling.methodMembers,
          Arrangement.byName.methods method method' = .eq
          ∧ method.item.key? ≠ method'.item.key?)
      ∧ straddlingBack.Coherent ∧ straddling.agree straddlingBack = true
      ∧ Format.flat.write straddling
        = .ok ("v1\tcompiled\tsource\nFIELD\ta\tI\tb/c\tx\nFIELD\ta/b\tI\tc\ty\n"
          ++ "METHOD\ta/b\tn()V\tm\trun\nMETHOD\ta/b\t()V\tmn\tstop\n")
      ∧ Format.flat.write straddlingBack
        = .ok ("v1\tcompiled\tsource\nFIELD\ta/b\tI\tc\ty\nFIELD\ta\tI\tb/c\tx\n"
          ++ "METHOD\ta/b\t()V\tmn\tstop\nMETHOD\ta/b\tn()V\tm\trun\n") := by
  rw [fieldMembers_straddling, methodMembers_straddling]
  refine ⟨straddling_coherent, ?_, ?_, straddlingBack_coherent, by decide +kernel,
    Outcome.check_eq_ok_iff.mpr ⟨rfl, ?_⟩, Outcome.check_eq_ok_iff.mpr ⟨rfl, ?_⟩⟩
  · exact ⟨_, List.mem_cons_self, _, List.mem_cons_of_mem _ List.mem_cons_self,
      by decide +kernel, by decide⟩
  · exact ⟨_, List.mem_cons_self, _, List.mem_cons_of_mem _ List.mem_cons_self,
      by decide +kernel, by decide⟩
  · rw [body_straddling.1]
    decide +kernel
  · rw [body_straddling.2]
    decide +kernel

-----------------------------------------------------------------------------------------
-- The order of the flat format
-----------------------------------------------------------------------------------------

/-- Members that repeat their keys are all different. -/
theorem nodup_members {κ α : Type} [DecidableEq κ] {entriesOf : Class 2 → OrderedMap κ α}
    {key? : α → Option κ}
    (keyed
      : ∀ owner cls key a, table.class? owner = some cls → (entriesOf cls).get? key = some a
          → key? a = some key)
    : (table.classes.entries.flatMap fun (owner, cls) =>
        (entriesOf cls).values.map (Member.mk owner)).Nodup := by
  rw [← List.map_id (List.flatMap _ _)]
  apply nodup_map_members entriesOf
  intro owner cls owner' cls' key a key' a' stored found stored' found' same
  obtain ⟨rfl, rfl⟩ := Member.mk.inj same
  have key_eq := (keyed owner cls key a stored found).symm.trans
    (keyed owner cls' key' a stored' found')
  exact ⟨rfl, Option.some.inj key_eq⟩

theorem Coherent.nodup_flatFields (coherent : table.Coherent) : (Flat.fields table).Nodup := by
  have nodup : table.fieldMembers.Nodup := nodup_members fun _ _ _ _ stored found =>
    coherent.field_key? (Option.bind_eq_some_iff.mpr ⟨_, stored, found⟩)
  have fields_eq : Flat.fields table
      = table.fieldMembers.filter fun field => field.item.names.target.isSome := by
    rw [Flat.fields, fieldMembers, List.filter_flatMap]
    simp only [List.filter_map]
    rfl
  rw [fields_eq]
  exact nodup.filter _

theorem Coherent.nodup_flatMethods (coherent : table.Coherent) : (Flat.methods table).Nodup := by
  have nodup : table.methodMembers.Nodup := nodup_members fun _ _ _ _ stored found =>
    coherent.method_key? (Option.bind_eq_some_iff.mpr ⟨_, stored, found⟩)
  have methods_eq : Flat.methods table
      = table.methodMembers.filter fun method => method.item.names.target.isSome := by
    rw [Flat.methods, methodMembers, List.filter_flatMap]
    simp only [List.filter_map]
    rfl
  rw [methods_eq]
  exact nodup.filter _

/-- The fields in a flat file come in one order, however they are listed, exactly if none of them
straddles another one with its descriptor.
-/
theorem Coherent.flatFields_determined_iff (coherent : table.Coherent)
    : (∀ listed, listed.Perm (Flat.fields table) →
          Arrangement.byName.sortFields listed
            = Arrangement.byName.sortFields (Flat.fields table))
      ↔ ∀ {owner owner' : ClassName} {key key' : FieldKey} {field field' : Field 2},
          table.field? owner key = some field → field.names.target.isSome = true →
          table.field? owner' key' = some field' → field'.names.target.isSome = true →
          key.descriptor = key'.descriptor →
          ¬Straddles owner key.name.text owner' key'.name.text := by
  have nodup := coherent.nodup_flatFields
  refine (sortBy_determined_iff nodup).trans ((pairwise_compare_ne_iff nodup).trans ?_)
  constructor
  · intro same owner owner' key key' field field' stored named stored' named' described straddle
    have tie := (coherent.byName_fields_eq_iff stored stored').mpr
      (Or.inr ⟨described, Or.inl straddle⟩)
    have member_eq := same ⟨owner, field⟩ (Flat.mem_fields_iff.mpr ⟨key, stored, named⟩)
      ⟨owner', field'⟩ (Flat.mem_fields_iff.mpr ⟨key', stored', named'⟩) tie
    exact straddle.owner_ne (congrArg Member.owner member_eq)
  · intro apart ⟨owner, field⟩ listed ⟨owner', field'⟩ listed' tie
    obtain ⟨key, stored, named⟩ := Flat.mem_fields_iff.mp listed
    obtain ⟨key', stored', named'⟩ := Flat.mem_fields_iff.mp listed'
    rcases (coherent.byName_fields_eq_iff stored stored').mp tie
      with ⟨rfl, rfl⟩ | ⟨described, straddle | straddle⟩
    · obtain rfl := Option.some.inj (stored.symm.trans stored')
      rfl
    · exact absurd straddle (apart stored named stored' named' described)
    · exact absurd straddle (apart stored' named' stored named described.symm)

/-- The methods in a flat file come in one order, however they are listed, exactly if none of them
straddles another one, be it by its class or, in one class, by its descriptor.
-/
theorem Coherent.flatMethods_determined_iff (coherent : table.Coherent)
    : (∀ listed, listed.Perm (Flat.methods table) →
          Arrangement.byName.sortMethods listed
            = Arrangement.byName.sortMethods (Flat.methods table))
      ↔ ∀ {owner owner' : ClassName} {key key' : MethodKey} {method method' : Method 2},
          table.method? owner key = some method → method.names.target.isSome = true →
          table.method? owner' key' = some method' → method'.names.target.isSome = true →
          ¬(owner = owner' ∧ key.Straddles key')
            ∧ ¬Straddles owner (key.name.text ++ key.descriptor.text)
                owner' (key'.name.text ++ key'.descriptor.text) := by
  have nodup := coherent.nodup_flatMethods
  refine (sortBy_determined_iff nodup).trans ((pairwise_compare_ne_iff nodup).trans ?_)
  constructor
  · intro same owner owner' key key' method method' stored named stored' named'
    have member_eq
        (tie : Arrangement.byName.methods ⟨owner, method⟩ ⟨owner', method'⟩ = .eq)
        : Member.mk owner method = Member.mk owner' method' :=
      same _ (Flat.mem_methods_iff.mpr ⟨key, stored, named⟩)
        _ (Flat.mem_methods_iff.mpr ⟨key', stored', named'⟩) tie
    have tie_iff := coherent.byName_methods_eq_iff stored stored'
    constructor
    · rintro ⟨owner_eq, straddle⟩
      obtain ⟨_, rfl⟩ := Member.mk.inj
        (member_eq (tie_iff.mpr (Or.inl ⟨owner_eq, Or.inr (Or.inl straddle)⟩)))
      have keyed := (coherent.method_key? stored).symm.trans (coherent.method_key? stored')
      exact straddle.ne (Option.some.inj keyed)
    · intro straddle
      exact straddle.owner_ne (congrArg Member.owner
        (member_eq (tie_iff.mpr (Or.inr (Or.inl straddle)))))
  · intro apart ⟨owner, method⟩ listed ⟨owner', method'⟩ listed' tie
    obtain ⟨key, stored, named⟩ := Flat.mem_methods_iff.mp listed
    obtain ⟨key', stored', named'⟩ := Flat.mem_methods_iff.mp listed'
    rcases (coherent.byName_methods_eq_iff stored stored').mp tie
      with ⟨owner_eq, rfl | straddle | straddle⟩ | straddle | straddle
    · subst owner_eq
      obtain rfl := Option.some.inj (stored.symm.trans stored')
      rfl
    · exact absurd ⟨owner_eq, straddle⟩ (apart stored named stored' named').1
    · exact absurd ⟨owner_eq.symm, straddle⟩ (apart stored' named' stored named).1
    · exact absurd straddle (apart stored named stored' named').2
    · exact absurd straddle (apart stored' named' stored named).2

end Table

end NameTables
