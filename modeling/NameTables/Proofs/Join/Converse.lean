import Mathlib
import NameTables.Proofs.Join.Unmoved
import NameTables.Proofs.Projection.Moved

/-! Joins back and forth.
A join looks entries up in one direction only. When no two entries share a name to be matched by and
none fall on one key, each entry has at most one match and each match belongs to at most one entry.
So the join the other way round links the same names.
-/

namespace NameTables

variable {m n : Nat}

/-- Items that yield the same are the same if nothing is yielded twice. -/
theorem eq_of_nodup_filterMap {α β : Type} {yield : α → Option β} {items : List α}
    (nodup : (items.filterMap yield).Nodup) {a a' : α} (listed : a ∈ items) (listed' : a' ∈ items)
    {b : β} (yields : yield a = some b) (yields' : yield a' = some b)
    : a = a' := by
  rw [List.Nodup, List.pairwise_filterMap] at nodup
  have symmetric : Std.Symm fun a a' => ∀ b, yield a = some b → ∀ b', yield a' = some b' → b ≠ b' :=
    ⟨fun _ _ apart b here b' there => (apart b' there b here).symm⟩
  by_contra different
  exact nodup.forall listed listed' different b yields b yields' rfl

namespace Table

/-- (table.Translates a b) says that an entry called `a` has the target name `b`. -/
def Translates (table : Table 2) {kind : Kind} (a b : Name kind) : Prop :=
  ∃ names ∈ table.namesOf kind, names.source = some a ∧ names.target = some b

/-- No two entries of a kind share their name in a namespace, parameters apart. -/
def NamesApart (table : Table n) (column : Fin n) : Prop :=
  ∀ kind, kind ≠ .parameter
    → ((table.namesOf kind).filterMap fun names => names.get column).Nodup

-----------------------------------------------------------------------------------------
-- Entries under their new keys
-----------------------------------------------------------------------------------------

section Rekeyed

variable {table : Table n} {source : Fin n}

/-- The key of a new path is made of the name in the new namespace. -/
theorem source_freshNames_of_mem_rekeyed {declared : Declaration n}
    (member : declared ∈ table.rekeyed source) (no_parameter : declared.path.kind ≠ .parameter)
    : (freshNames declared.path : Names 2 declared.path.kind).source
      = declared.names.get source := by
  obtain ⟨cls, _, owner, owned, rfl | ⟨field, _, key, keyed, rfl⟩
    | ⟨method, _, key, keyed, rfl | ⟨parameter, _, rfl⟩⟩⟩ := mem_rekeyed_iff.mp member
  · exact owned.symm
  · obtain ⟨name, named, rfl⟩ := Option.map_eq_some_iff.mp keyed
    exact named.symm
  · obtain ⟨name, named, rfl⟩ := Option.map_eq_some_iff.mp keyed
    exact named.symm
  · exact absurd rfl no_parameter

/-- Entries are told by their new keys. -/
theorem KeysApart.eq_of_path_eq (apart : table.KeysApart source)
    {declared declared' : Declaration n} (member : declared ∈ table.rekeyed source)
    (member' : declared' ∈ table.rekeyed source) (no_parameter : declared.path.kind ≠ .parameter)
    (same : declared.path = declared'.path)
    : declared = declared' := by
  obtain ⟨cls, among, owner, owned, found⟩ := mem_rekeyed_iff.mp member
  obtain ⟨cls', among', owner', owned', found'⟩ := mem_rekeyed_iff.mp member'
  have same_class (owners_eq : owner = owner') : cls = cls' :=
    eq_of_nodup_filterMap apart.classes among among' owned (owners_eq ▸ owned')
  rcases found with rfl | ⟨field, inside, key, keyed, rfl⟩
    | ⟨method, inside, key, keyed, rfl | ⟨parameter, _, rfl⟩⟩
  · rcases found' with rfl | ⟨_, _, _, _, rfl⟩ | ⟨_, _, _, _, rfl | ⟨_, _, rfl⟩⟩ <;> cases same
    rw [same_class rfl]
  · rcases found' with rfl | ⟨field', inside', _, keyed', rfl⟩ | ⟨_, _, _, _, rfl | ⟨_, _, rfl⟩⟩
      <;> cases same
    obtain rfl := same_class rfl
    rw [eq_of_nodup_filterMap (apart.fields cls among) inside inside' keyed keyed']
  · rcases found' with rfl | ⟨_, _, _, _, rfl⟩ | ⟨method', inside', _, keyed', rfl | ⟨_, _, rfl⟩⟩
      <;> cases same
    obtain rfl := same_class rfl
    rw [eq_of_nodup_filterMap (apart.methods cls among) inside inside' keyed keyed']
  · exact absurd rfl no_parameter

end Rekeyed

end Table

-----------------------------------------------------------------------------------------
-- Joins of any tables
-----------------------------------------------------------------------------------------

namespace JoinColumns

variable (columns : JoinColumns m n) {left : Table m} {right : Table n}

/-- What is declared under a new key makes its path in the joined table, with the target name of
its match. Parameters are not joined.
-/
def declaredRetarget? (right : Table n) (declared : Declaration m) : Option Retarget :=
  if declared.path.kind = .parameter then none
  else some ⟨declared.path,
    columns.matchTarget? id (right.namesOf declared.path.kind) declared.names⟩

/-- What an entry makes is told by what it declares under its new key. -/
theorem retargetUnder?_eq_bind (right : Table n) (rekey : Rekey m) (entry : Entry m)
    : columns.retargetUnder? right rekey entry
      = (entry.rekeyed? rekey).bind (columns.declaredRetarget? right) := by
  cases entry with
  | cls cls =>
      rw [retargetUnder?, Entry.rekeyed?]
      cases cls.names.get rekey.column with
      | none => rfl
      | some owner =>
          exact congrArg (fun target? => some (Retarget.mk (.cls owner) target?))
            (matchTarget?_map Class.names right.classes.values cls.names).symm
  | field owner field =>
      rw [retargetUnder?, Entry.rekeyed?]
      cases owner.names.get rekey.column with
      | none => rfl
      | some ownerName =>
          cases rekey.fieldKey? field with
          | none => rfl
          | some key =>
              exact congrArg (fun target? => some (Retarget.mk (.field ownerName key) target?))
                (matchTarget?_map Field.names right.fields field.names).symm
  | method owner method =>
      rw [retargetUnder?, Entry.rekeyed?]
      cases owner.names.get rekey.column with
      | none => rfl
      | some ownerName =>
          cases rekey.methodKey? method with
          | none => rfl
          | some key =>
              exact congrArg (fun target? => some (Retarget.mk (.method ownerName key) target?))
                (matchTarget?_map Method.names right.methods method.names).symm
  | parameter owner method parameter =>
      rw [retargetUnder?, Entry.rekeyed?]
      cases owner.names.get rekey.column with
      | none => rfl
      | some ownerName => cases rekey.methodKey? method <;> rfl

variable {columns} {labels : JoinLabels}

/-- What the entries of the left table make in the joined table. -/
def declaredRetargets (columns : JoinColumns m n) (left : Table m) (right : Table n)
    : List Retarget :=
  (left.rekeyed columns.source).filterMap (columns.declaredRetarget? right)

theorem mem_declaredRetargets_iff {path : Path} {target? : Option (Name path.kind)}
    : ⟨path, target?⟩ ∈ columns.declaredRetargets left right
      ↔ path.kind ≠ .parameter ∧ ∃ names, ⟨path, names⟩ ∈ left.rekeyed columns.source
          ∧ target? = columns.matchTarget? id (right.namesOf path.kind) names := by
  rw [declaredRetargets, List.mem_filterMap]
  constructor
  · intro given
    rcases given with ⟨⟨declared, names⟩, member, made⟩
    rw [declaredRetarget?] at made
    split at made
    · simp at made
    · next no_parameter =>
      cases made
      exact ⟨no_parameter, names, member, rfl⟩
  · intro given
    rcases given with ⟨no_parameter, names, member, rfl⟩
    exact ⟨⟨path, names⟩, member, by rw [declaredRetarget?, if_neg no_parameter]⟩

/-- A join that succeeds makes what is declared under new keys, whatever the tables are. -/
theorem eq_retargeted_of_join (labelled : columns.Labelled left right labels) {result : Table 2}
    (succeeds : left.join right labels = .ok result)
    : result = Table.retargeted ⟨#v[labels.source, labels.target]⟩
        (columns.declaredRetargets left right) := by
  obtain ⟨columns', labelled', rfl⟩ := Table.join_eq_retargetUnder succeeds
  obtain rfl := labelled.unique labelled'
  rw [declaredRetargets, Table.rekeyed, List.filterMap_filterMap,
    funext (columns.retargetUnder?_eq_bind right _)]
  rfl

-----------------------------------------------------------------------------------------
-- Linked names
-----------------------------------------------------------------------------------------

/-- (columns.Linked left right a b) says that an entry of the left table called `a` in the source
namespace shares its name for matching with one of the right table called `b` in the target
namespace.
-/
def Linked (columns : JoinColumns m n) (left : Table m) (right : Table n) {kind : Kind}
    (a b : Name kind)
    : Prop :=
  kind ≠ .parameter
  ∧ ∃ names ∈ left.namesOf kind, ∃ names' ∈ right.namesOf kind, ∃ shared,
      (names.get columns.source = some a ∧ names.get columns.probe = some shared)
      ∧ (names'.get columns.target = some b ∧ names'.get columns.key = some shared)

/-- The namespaces of the join the other way round. -/
def flip (columns : JoinColumns m n) : JoinColumns n m :=
  ⟨columns.target, columns.key, columns.source, columns.probe⟩

theorem Linked.flip {kind : Kind} {a b : Name kind} (linked : columns.Linked left right a b)
    : columns.flip.Linked right left b a := by
  obtain ⟨no_parameter, names, listed, names', listed', shared, here, there⟩ := linked
  exact ⟨no_parameter, names', listed', names, listed, shared, there, here⟩

theorem exists_of_matchTarget? {kind : Kind} {others : List (Names n kind)} {names : Names m kind}
    {b : Name kind} (found : columns.matchTarget? id others names = some b)
    : ∃ names' ∈ others, ∃ shared, names.get columns.probe = some shared
        ∧ names'.get columns.target = some b ∧ names'.get columns.key = some shared := by
  obtain ⟨shared, probed, found⟩ := Option.bind_eq_some_iff.mp found
  obtain ⟨names', last, target⟩ := Option.bind_eq_some_iff.mp found
  obtain ⟨listed, keyed⟩ := List.mem_filter.mp (List.mem_of_getLast? last)
  exact ⟨names', listed, shared, probed, target, of_decide_eq_true keyed⟩

/-- The only entry with a name is found by it. -/
theorem matchTarget?_eq_some {kind : Kind} {others : List (Names n kind)}
    (apart : (others.filterMap fun names' => names'.get columns.key).Nodup) {names : Names m kind}
    {names' : Names n kind} (listed : names' ∈ others) {shared b : Name kind}
    (probed : names.get columns.probe = some shared)
    (there : names'.get columns.target = some b ∧ names'.get columns.key = some shared)
    : columns.matchTarget? id others names = some b := by
  have among : names' ∈ others.filter fun other => (id other).get columns.key = some shared :=
    List.mem_filter.mpr ⟨listed, decide_eq_true there.2⟩
  obtain ⟨found, last⟩ := Option.isSome_iff_exists.mp
    (List.getLast?_isSome.mpr (List.ne_nil_of_mem among))
  obtain ⟨found_listed, keyed⟩ := List.mem_filter.mp (List.mem_of_getLast? last)
  obtain rfl := eq_of_nodup_filterMap apart found_listed listed (of_decide_eq_true keyed) there.2
  rw [matchTarget?, probed]
  simp only [Option.bind_eq_bind, Option.bind_some, last]
  exact there.1

/-- A join links no other names. -/
theorem linked_of_translates {joined : Labels 2} {kind : Kind} {a b : Name kind}
    (translates
      : (Table.retargeted joined (columns.declaredRetargets left right)).Translates a b)
    : columns.Linked left right a b := by
  obtain ⟨names, listed, source, target⟩ := translates
  have each : ∀ path (names : Names 2 path.kind),
      (Table.retargeted joined (columns.declaredRetargets left right)).names? path = some names
      → ∀ a b, names.source = some a → names.target = some b
        → columns.Linked left right a b := by
    intro path names found a b source target
    obtain rfl := Table.names?_retargeted joined _ found
    rw [Names.target_setTarget] at target
    rw [Names.source_eq_first?, Names.first?_setTarget, ← Names.source_eq_first?] at source
    obtain ⟨no_parameter, before, member, matched⟩ :=
      mem_declaredRetargets_iff.mp (mem_of_lastTarget? target)
    obtain ⟨names', listed', shared, probed, there⟩ := exists_of_matchTarget? matched.symm
    have called : before.get columns.source = some a :=
      (Table.source_freshNames_of_mem_rekeyed member no_parameter).symm.trans source
    exact ⟨no_parameter, before, Table.mem_namesOf_of_mem_rekeyed member, names', listed', shared,
      ⟨called, probed⟩, there⟩
  exact Table.forall_mem_namesOf (P := fun {kind} names => ∀ a b : Name kind,
    names.source = some a → names.target = some b → columns.Linked left right a b) each listed
    a b source target

/-- A join links all names that it can when nothing shares a name or falls on one key. -/
theorem translates_of_linked (joined : Labels 2) (apart : left.KeysApart columns.source)
    (named : ∀ cls ∈ left.classes.values, (cls.names.get columns.source).isSome = true)
    (names_apart : right.NamesApart columns.key) {kind : Kind} {a b : Name kind}
    (linked : columns.Linked left right a b)
    : (Table.retargeted joined (columns.declaredRetargets left right)).Translates a b := by
  obtain ⟨no_parameter, names, listed, names', listed', shared, here, there⟩ := linked
  let result := Table.retargeted joined (columns.declaredRetargets left right)
  let P {kind : Kind} (names : Names m kind) : Prop :=
    ∀ a b : Name kind, names.get columns.source = some a
      → columns.matchTarget? id (right.namesOf kind) names = some b → result.Translates a b
  have each : ∀ declared ∈ left.rekeyed columns.source, declared.path.kind ≠ .parameter
      → P declared.names := by
    rintro ⟨path, names⟩ member no_parameter a b called matched
    have made : ⟨path, some b⟩ ∈ columns.declaredRetargets left right :=
      mem_declaredRetargets_iff.mpr ⟨no_parameter, names, member, matched.symm⟩
    -- The last entry on the path is this one, since no other falls on it.
    have last : lastTarget? (columns.declaredRetargets left right) path = some b := by
      apply lastTarget?_eq_some made
      intro other made'
      obtain ⟨_, before, member', matched'⟩ := mem_declaredRetargets_iff.mp made'
      cases apart.eq_of_path_eq member member' no_parameter rfl
      exact Option.some.inj (matched'.trans matched)
    have found := Table.names?_retargeted_of_mem joined _ made
    refine ⟨_, Table.mem_namesOf found, ?_, ?_⟩
    · rw [Names.source_eq_first?, Names.first?_setTarget, ← Names.source_eq_first?]
      exact (Table.source_freshNames_of_mem_rekeyed member no_parameter).trans called
    · rw [Names.target_setTarget]
      exact last
  have matched := matchTarget?_eq_some (names_apart kind no_parameter) listed' here.2 there
  exact Table.forall_called_of_rekeyed (P := P) each named no_parameter listed here.1 a b here.1
    matched

/-- (columns.OneToOne left right) says that all classes have a name in their new namespace, that no
two entries of a kind share their name for matching, and that none fall on one key, whichever table
is joined to the other one.
-/
structure OneToOne (columns : JoinColumns m n) (left : Table m) (right : Table n) : Prop where
  left_named : ∀ cls ∈ left.classes.values, (cls.names.get columns.source).isSome = true
  right_named : ∀ cls ∈ right.classes.values, (cls.names.get columns.target).isSome = true
  left_names : left.NamesApart columns.probe
  right_names : right.NamesApart columns.key
  left_keys : left.KeysApart columns.source
  right_keys : right.KeysApart columns.target

theorem OneToOne.flip (oneToOne : columns.OneToOne left right)
    : columns.flip.OneToOne right left where
  left_named := oneToOne.right_named
  right_named := oneToOne.left_named
  left_names := oneToOne.right_names
  right_names := oneToOne.left_names
  left_keys := oneToOne.right_keys
  right_keys := oneToOne.left_keys

/-- A join that is one to one translates exactly what is linked. -/
theorem OneToOne.translates_iff (oneToOne : columns.OneToOne left right)
    (labelled : columns.Labelled left right labels) {result : Table 2}
    (succeeds : left.join right labels = .ok result) {kind : Kind} {a b : Name kind}
    : result.Translates a b ↔ columns.Linked left right a b := by
  obtain rfl := eq_retargeted_of_join labelled succeeds
  exact ⟨linked_of_translates, translates_of_linked _ oneToOne.left_keys oneToOne.left_named
    oneToOne.right_names⟩

end JoinColumns

/-- Joins back and forth translate the same names, each in its own direction. -/
theorem Table.joinShared_converse {left : Table m} {right : Table n} {columns : JoinColumns m n}
    {source target matching : String}
    (labelled : columns.Labelled left right ⟨source, matching, target, matching⟩)
    (oneToOne : columns.OneToOne left right) {forward backward : Table 2}
    (forth : left.joinShared right source target matching = .ok forward)
    (back : right.joinShared left target source matching = .ok backward) {kind : Kind}
    (a b : Name kind)
    : forward.Translates a b ↔ backward.Translates b a := by
  obtain ⟨found_source, found_probe, found_target, found_key⟩ := labelled
  have labelled_back : columns.flip.Labelled right left ⟨target, matching, source, matching⟩ :=
    ⟨found_target, found_key, found_source, found_probe⟩
  rw [oneToOne.translates_iff ⟨found_source, found_probe, found_target, found_key⟩ forth,
    oneToOne.flip.translates_iff labelled_back back]
  exact ⟨.flip, .flip⟩

/-- Official names with hashed ones. The last method has no match. -/
def Table.officialNames : Table 3 :=
  (Table.empty ⟨#v["server", "official", "hashed"]⟩).declareAll
    [⟨.cls ⟨"x"⟩, ⟨#v[some ⟨"x"⟩, some ⟨"a"⟩, some ⟨"C1"⟩]⟩⟩,
      ⟨.field ⟨"x"⟩ ⟨⟨"f"⟩, some ⟨"Lx;"⟩⟩, ⟨#v[some ⟨"f"⟩, some ⟨"g"⟩, some ⟨"F1"⟩]⟩⟩,
      ⟨.method ⟨"x"⟩ ⟨⟨"m"⟩, ⟨"(Ly;)V"⟩⟩, ⟨#v[some ⟨"m"⟩, some ⟨"h"⟩, some ⟨"M1"⟩]⟩⟩,
      ⟨.cls ⟨"y"⟩, ⟨#v[some ⟨"y"⟩, some ⟨"b"⟩, some ⟨"C2"⟩]⟩⟩,
      ⟨.method ⟨"y"⟩ ⟨⟨"m"⟩, ⟨"(Ly;)V"⟩⟩, ⟨#v[some ⟨"m"⟩, some ⟨"h"⟩, some ⟨"M9"⟩]⟩⟩]

/-- Names for what has hashed ones. The last class has no match. -/
def Table.namedEntries : Table 2 :=
  (Table.empty ⟨#v["hashed", "named"]⟩).declareAll
    [⟨.cls ⟨"C2"⟩, .pair (some ⟨"C2"⟩) (some ⟨"Block"⟩)⟩,
      ⟨.cls ⟨"C1"⟩, .pair (some ⟨"C1"⟩) (some ⟨"World"⟩)⟩,
      ⟨.field ⟨"C1"⟩ ⟨⟨"F1"⟩, some ⟨"LC1;"⟩⟩, .pair (some ⟨"F1"⟩) (some ⟨"self"⟩)⟩,
      ⟨.method ⟨"C1"⟩ ⟨⟨"M1"⟩, ⟨"(LC2;)V"⟩⟩, .pair (some ⟨"M1"⟩) (some ⟨"tick"⟩)⟩,
      ⟨.cls ⟨"C3"⟩, .pair (some ⟨"C3"⟩) (some ⟨"Item"⟩)⟩]

/-- Both joins translate a field and a method between official names and those given to them. -/
theorem Table.joinShared_converse_official
    : ∃ (columns : JoinColumns 3 2) (forward backward : Table 2),
        columns.Labelled officialNames namedEntries
          ⟨"official", "hashed", "named", "hashed"⟩
        ∧ columns.OneToOne officialNames namedEntries
        ∧ officialNames.joinShared namedEntries "official" "named" "hashed" = .ok forward
        ∧ namedEntries.joinShared officialNames "named" "official" "hashed" = .ok backward
        ∧ forward.names? (.method ⟨"a"⟩ ⟨⟨"h"⟩, ⟨"(Lb;)V"⟩⟩)
          = some (.pair (some ⟨"h"⟩) (some ⟨"tick"⟩))
        ∧ backward.names? (.method ⟨"World"⟩ ⟨⟨"tick"⟩, ⟨"(LBlock;)V"⟩⟩)
          = some (.pair (some ⟨"tick"⟩) (some ⟨"h"⟩))
        ∧ ∀ (kind : Kind) (a b : Name kind), forward.Translates a b ↔ backward.Translates b a := by
  let columns : JoinColumns 3 2 := ⟨1, 2, 1, 0⟩
  have labelled : columns.Labelled officialNames namedEntries
      ⟨"official", "hashed", "named", "hashed"⟩ := by
    refine ⟨?_, ?_, ?_, ?_⟩ <;> decide
  have oneToOne : columns.OneToOne officialNames namedEntries := by
    constructor
    case left_names | right_names =>
      intro kind no_parameter
      cases kind
      case parameter => exact absurd rfl no_parameter
      all_goals decide
    case left_keys | right_keys => constructor <;> decide +kernel
    all_goals decide
  have forth : officialNames.joinShared namedEntries "official" "named" "hashed"
      = .ok ((Table.empty ⟨#v["official", "named"]⟩).declareAll
          [⟨.cls ⟨"a"⟩, .pair (some ⟨"a"⟩) (some ⟨"World"⟩)⟩,
            ⟨.field ⟨"a"⟩ ⟨⟨"g"⟩, some ⟨"La;"⟩⟩, .pair (some ⟨"g"⟩) (some ⟨"self"⟩)⟩,
            ⟨.method ⟨"a"⟩ ⟨⟨"h"⟩, ⟨"(Lb;)V"⟩⟩, .pair (some ⟨"h"⟩) (some ⟨"tick"⟩)⟩,
            ⟨.cls ⟨"b"⟩, .pair (some ⟨"b"⟩) (some ⟨"Block"⟩)⟩,
            ⟨.method ⟨"b"⟩ ⟨⟨"h"⟩, ⟨"(Lb;)V"⟩⟩, .pair (some ⟨"h"⟩) none⟩]) := by
    cbv
  have back : namedEntries.joinShared officialNames "named" "official" "hashed"
      = .ok ((Table.empty ⟨#v["named", "official"]⟩).declareAll
          [⟨.cls ⟨"Block"⟩, .pair (some ⟨"Block"⟩) (some ⟨"b"⟩)⟩,
            ⟨.cls ⟨"World"⟩, .pair (some ⟨"World"⟩) (some ⟨"a"⟩)⟩,
            ⟨.field ⟨"World"⟩ ⟨⟨"self"⟩, some ⟨"LWorld;"⟩⟩, .pair (some ⟨"self"⟩) (some ⟨"g"⟩)⟩,
            ⟨.method ⟨"World"⟩ ⟨⟨"tick"⟩, ⟨"(LBlock;)V"⟩⟩, .pair (some ⟨"tick"⟩) (some ⟨"h"⟩)⟩,
            ⟨.cls ⟨"Item"⟩, .pair (some ⟨"Item"⟩) none⟩]) := by
    cbv
  exact ⟨columns, _, _, labelled, oneToOne, forth, back, by decide, by decide,
    fun kind a b => joinShared_converse labelled oneToOne forth back a b⟩

end NameTables
