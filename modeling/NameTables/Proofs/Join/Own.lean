import NameTables.Proofs.Join.Fallback
import NameTables.Proofs.Projection.Declared

/-! Migrations of a table to itself.
Where the names to match by lead to one name each, every match of an entry is called like the entry.
An entry without a match keeps its name. So whatever falls on a key, in whichever order, leaves the
name that is in the key.
-/

namespace NameTables

variable {m n : Nat}

/-- An entry keeps its name when all that fall on it found this name or nothing. -/
theorem fallback_eq_own {kind : Kind} {own : Name kind}
    {founds : List (Option (Option (Name kind)))} (nonempty : founds ≠ [])
    (each : ∀ found ∈ founds, found = none ∨ found = some (some own))
    : fallback own founds = some own := by
  rw [fallback]
  cases last : (founds.filterMap Option.join).getLast? with
  | some name =>
      obtain ⟨found, among, named⟩ := List.mem_filterMap.mp (List.mem_of_getLast? last)
      rcases each found among with rfl | rfl
      · cases named
      · exact named.symm
  | none =>
      have unnamed := List.filterMap_eq_nil_iff.mp (List.getLast?_eq_none_iff.mp last)
      obtain ⟨found, among⟩ := List.exists_mem_of_ne_nil founds nonempty
      rcases each found among with rfl | rfl
      · exact if_pos among
      · cases unnamed _ among

/-- All entries but parameters go by a name in their keys. -/
theorem Path.exists_own? (path : Path) (no_parameter : path.kind ≠ .parameter)
    : ∃ own, path.own? = some own := by
  cases path with
  | cls | field | method => exact ⟨_, rfl⟩
  | parameter => exact absurd rfl no_parameter

theorem Table.mem_entries_cls_iff {table : Table n} {cls : Class n}
    : Entry.cls cls ∈ table.entries ↔ cls ∈ table.classes.values := by
  simp [entries, Class.entries, Method.entries]

-----------------------------------------------------------------------------------------
-- What is proposed, for all kinds of entries alike
-----------------------------------------------------------------------------------------

namespace JoinColumns

variable {columns : JoinColumns m n} {left : Table m} {right : Table n}

/-- A match is told by the names of the entries that it is looked for among. -/
theorem found?_map {kind : Kind} {α : Type} (namesOf : α → Names n kind) (others : List α)
    (names : Names m kind)
    : columns.found? id (others.map namesOf) names = columns.found? namesOf others names := by
  rw [found?, found?, match?, match?]
  cases names.get columns.probe with
  | none => rfl
  | some name =>
      simp only [Option.bind_eq_bind, Option.bind_some, List.filter_map, List.getLast?_map,
        Option.map_map]
      rfl

/-- An entry with a name in the source namespace made the proposal, under this name. -/
theorem exists_of_mem_proposals {proposal : Proposal}
    (listed : proposal ∈ columns.proposals left right)
    : ∃ names ∈ left.namesOf proposal.path.kind,
        names.get columns.source = proposal.path.own?
        ∧ proposal.found = columns.found? id (right.namesOf proposal.path.kind) names := by
  obtain ⟨entry, member, proposed⟩ := List.mem_filterMap.mp listed
  cases entry with
  | cls cls =>
      obtain ⟨owner, called, same⟩ := Option.bind_eq_some_iff.mp proposed
      obtain rfl := Option.some.inj same
      have inside : cls ∈ left.classes.values := Table.mem_entries_cls_iff.mp member
      exact ⟨cls.names, List.mem_map_of_mem inside, called, (found?_map ..).symm⟩
  | field owner field =>
      obtain ⟨ownerName, _, keyed⟩ := Option.bind_eq_some_iff.mp proposed
      obtain ⟨key, moved, same⟩ := Option.bind_eq_some_iff.mp keyed
      obtain rfl := Option.some.inj same
      obtain ⟨name, called, rfl⟩ := Option.map_eq_some_iff.mp moved
      have inside : field ∈ left.fields :=
        List.mem_flatMap.mpr ⟨owner, Table.mem_entries_field_iff.mp member⟩
      exact ⟨field.names, List.mem_map_of_mem inside, called, (found?_map ..).symm⟩
  | method owner method =>
      obtain ⟨ownerName, _, keyed⟩ := Option.bind_eq_some_iff.mp proposed
      obtain ⟨key, moved, same⟩ := Option.bind_eq_some_iff.mp keyed
      obtain rfl := Option.some.inj same
      obtain ⟨name, called, rfl⟩ := Option.map_eq_some_iff.mp moved
      have inside : method ∈ left.methods :=
        List.mem_flatMap.mpr ⟨owner, Table.mem_entries_method_iff.mp member⟩
      exact ⟨method.names, List.mem_map_of_mem inside, called, (found?_map ..).symm⟩
  | parameter => cases proposed

/-- Nothing that is proposed leads to a parameter. -/
theorem kind_ne_parameter_of_reaches {proposal : Proposal}
    (listed : proposal ∈ columns.proposals left right) {path : Path}
    (reaches : proposal.path.Reaches path)
    : path.kind ≠ .parameter := by
  have no_parameter := columns.kind_ne_parameter_of_mem_proposals left right listed
  obtain ⟨changed, found⟩ := proposal
  rcases reaches with rfl | above
  · exact no_parameter
  · cases changed with
    | cls | field | method => simp_all [Path.above]
    | parameter => exact absurd rfl no_parameter

/-- An entry is there if something is proposed for it. -/
theorem reaches_iff {path : Path} (no_parameter : path.kind ≠ .parameter)
    : (∃ proposal ∈ columns.proposals left right, proposal.path.Reaches path)
      ↔ (columns.proposals left right).filterMap (·.foundAt? path) ≠ [] := by
  cases path with
  | cls owner =>
      rw [filterMap_proposals_cls]
      exact columns.reaches_cls_iff left right owner
  | field => exact columns.reaches_member_iff left right (Or.inl rfl)
  | method => exact columns.reaches_member_iff left right (Or.inr rfl)
  | parameter => exact absurd rfl no_parameter

end JoinColumns

-----------------------------------------------------------------------------------------
-- One table on both sides
-----------------------------------------------------------------------------------------

namespace Table

/-- Entries of a kind that share their name in `via` share the one in `onto` too, or both have
none. Parameters have no say in it.
-/
def Determines (table : Table n) (via onto : Fin n) : Prop :=
  ∀ kind ≠ .parameter, ∀ names ∈ table.namesOf kind, ∀ names' ∈ table.namesOf kind,
    (names.get via).isSome = true → names.get via = names'.get via
    → names.get onto = names'.get onto

variable {table : Table n} {matching named : Fin n}

/-- The match is called like the entry itself, if there is a match. -/
theorem Determines.found?_eq (determines : table.Determines matching named) {kind : Kind}
    (no_parameter : kind ≠ .parameter) {names : Names n kind} (member : names ∈ table.namesOf kind)
    : (⟨named, matching, named, matching⟩ : JoinColumns n n).found? id (table.namesOf kind) names
        = none
      ∨ (⟨named, matching, named, matching⟩ : JoinColumns n n).found? id (table.namesOf kind) names
        = some (names.get named) := by
  rw [JoinColumns.found?, JoinColumns.match?]
  cases probed : names.get matching with
  | none => exact Or.inl rfl
  | some name =>
      rw [Option.bind_eq_bind, Option.bind_some]
      cases last : ((table.namesOf kind).filter fun names' =>
          (id names').get matching = some name).getLast? with
      | none => exact Or.inl rfl
      | some names' =>
          obtain ⟨member', shared⟩ := List.mem_filter.mp (List.mem_of_getLast? last)
          have same : names.get matching = names'.get matching :=
            probed.trans (of_decide_eq_true shared).symm
          have alike := determines kind no_parameter names member names' member'
            (Option.isSome_of_eq_some probed) same
          exact Or.inr (congrArg some alike.symm)

/-- All that is found for an entry is the name in its key. -/
theorem Determines.found_eq_own (determines : table.Determines matching named) {path : Path}
    {found : Option (Option (Name path.kind))}
    (among
      : found ∈ ((⟨named, matching, named, matching⟩ : JoinColumns n n).proposals table
          table).filterMap (·.foundAt? path))
    : found = none ∨ found = some path.own? := by
  obtain ⟨proposal, listed, found_at⟩ := List.mem_filterMap.mp among
  have no_parameter := JoinColumns.kind_ne_parameter_of_reaches listed proposal.path.reaches_self
  obtain ⟨names, member, called, found_eq⟩ := JoinColumns.exists_of_mem_proposals listed
  have own := determines.found?_eq no_parameter member
  rw [← found_eq, show names.get named = proposal.path.own? from called] at own
  by_cases same : proposal.path = path
  · subst same
    rw [Proposal.foundAt?_self proposal.path proposal.found, Option.some.injEq] at found_at
    exact found_at ▸ own
  · rw [Proposal.foundAt?_of_ne same] at found_at
    cases found_at

/-- A migration of a table to itself changes no name, whatever entries share a key and whether or
not they can be matched: if the names to match by lead to one name each, then every entry of the
result is mapped to the name that it has.
-/
theorem migrate_itself {matchingLabel namedLabel source target : String}
    (found_matching : table.labels.find? matchingLabel = some matching)
    (found_named : table.labels.find? namedLabel = some named)
    (determines : table.Determines matching named) {result : Table 2}
    (succeeds : table.migrate table matchingLabel namedLabel source target = .ok result)
    {kind : Kind} {names : Names 2 kind} (member : names ∈ result.namesOf kind)
    : ∃ name, names = .pair (some name) (some name) := by
  obtain ⟨columns, labelled, labels, rfl⟩ := migrate_eq_proposed succeeds
  obtain rfl : columns = ⟨named, matching, named, matching⟩ :=
    labelled.unique ⟨found_named, found_matching, found_named, found_matching⟩
  refine forall_mem_namesOf (P := fun names => ∃ name, names = .pair (some name) (some name)) ?_
    member
  intro path names found
  rw [names?_proposed] at found
  obtain ⟨reached, told⟩ := Option.ite_none_right_eq_some.mp found
  obtain ⟨proposal, listed, reaches⟩ := reached
  have no_parameter := JoinColumns.kind_ne_parameter_of_reaches listed reaches
  have founds_ne := (JoinColumns.reaches_iff no_parameter).mp ⟨proposal, listed, reaches⟩
  obtain ⟨own, own_eq⟩ := path.exists_own? no_parameter
  have kept := fallback_eq_own founds_ne fun found' among =>
    own_eq ▸ determines.found_eq_own among
  rw [own_eq, settled_none, kept, Option.some.injEq] at told
  exact ⟨own, told.symm⟩

/-- Three classes with one name, of which two share a name to match by and one has none. The methods
of two of them move to one key, again with and without a name to match by.
-/
def partlyMatched : Table 3 :=
  (Table.empty ⟨#v["raw", "inter", "readable"]⟩).declareAll
    [⟨.cls ⟨"x"⟩, ⟨#v[some ⟨"x"⟩, some ⟨"I1"⟩, some ⟨"S"⟩]⟩⟩,
      ⟨.field ⟨"x"⟩ ⟨⟨"f"⟩, none⟩, ⟨#v[some ⟨"f"⟩, some ⟨"F1"⟩, none]⟩⟩,
      ⟨.method ⟨"x"⟩ ⟨⟨"m"⟩, ⟨"(Ly;)V"⟩⟩, ⟨#v[some ⟨"m"⟩, none, some ⟨"run"⟩]⟩⟩,
      ⟨.cls ⟨"y"⟩, ⟨#v[some ⟨"y"⟩, none, some ⟨"S"⟩]⟩⟩,
      ⟨.field ⟨"y"⟩ ⟨⟨"g"⟩, none⟩, ⟨#v[some ⟨"g"⟩, some ⟨"F1"⟩, none]⟩⟩,
      ⟨.method ⟨"y"⟩ ⟨⟨"k"⟩, ⟨"(Lx;)V"⟩⟩, ⟨#v[some ⟨"k"⟩, some ⟨"M1"⟩, some ⟨"run"⟩]⟩⟩,
      ⟨.cls ⟨"z"⟩, ⟨#v[some ⟨"z"⟩, some ⟨"I1"⟩, some ⟨"S"⟩]⟩⟩]

theorem migrate_itself_partlyMatched
    : partlyMatched.Determines 1 2
      ∧ ∃ result,
          partlyMatched.migrate partlyMatched "inter" "readable" "before" "after" = .ok result
          ∧ result.names? (.method ⟨"S"⟩ ⟨⟨"run"⟩, ⟨"(LS;)V"⟩⟩)
            = some (.pair (some ⟨"run"⟩) (some ⟨"run"⟩))
          ∧ ∀ kind, ∀ names ∈ result.namesOf kind,
              ∃ name, names = .pair (some name) (some name) := by
  have determines : partlyMatched.Determines 1 2 := by
    intro kind no_parameter
    cases kind
    case parameter => exact absurd rfl no_parameter
    all_goals decide
  have migrates : partlyMatched.migrate partlyMatched "inter" "readable" "before" "after"
      = .ok ((Table.empty ⟨#v["before", "after"]⟩).declareAll
          [⟨.cls ⟨"S"⟩, .pair (some ⟨"S"⟩) (some ⟨"S"⟩)⟩,
            ⟨.method ⟨"S"⟩ ⟨⟨"run"⟩, ⟨"(LS;)V"⟩⟩, .pair (some ⟨"run"⟩) (some ⟨"run"⟩)⟩]) := by
    decide +kernel
  exact ⟨determines, _, migrates, by decide, fun kind names member =>
    migrate_itself (by decide) (by decide) determines migrates member⟩

end Table

end NameTables
