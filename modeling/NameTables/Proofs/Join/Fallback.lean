import NameTables.Proofs.Join.Failing

/-! What an entry of a migrated table is called.
Several entries of the old table may fall on one key. Of their matches, the last one with a name
names the entry. If there is none, an entry without a match keeps its own name, and an entry all of
whose matches are nameless gets none.
-/

namespace NameTables

variable {m n : Nat}

/-- The name of an entry called `own`, from what the entries that fall on it found: nothing, a match
without a name, or a match with one.
-/
def fallback {kind : Kind} (own : Name kind) (founds : List (Option (Option (Name kind))))
    : Option (Name kind) :=
  match (founds.filterMap Option.join).getLast? with
  | some name => some name
  | none => if none ∈ founds then some own else none

/-- The names of an entry called `own`, if any entries fall on it. -/
def fallbackNames? {kind : Kind} (own : Name kind)
    : List (Option (Option (Name kind))) → Option (Names 2 kind)
  | [] => none
  | founds => some (.pair (some own) (fallback own founds))

-----------------------------------------------------------------------------------------
-- Runs of entries that find a match or do not
-----------------------------------------------------------------------------------------

/-- The name that is there after a run, when `current` was there before it. -/
def settled {α : Type} [DecidableEq α] (own? current : Option α)
    (founds : List (Option (Option α)))
    : Option α :=
  (founds.filterMap Option.join).getLast?.or (current.or (if none ∈ founds then own? else none))

/-- What the first entry leaves is what the others find. -/
theorem settled_cons {α : Type} [DecidableEq α] (own? current : Option α)
    (found : Option (Option α)) (founds : List (Option (Option α)))
    : settled own? current (found :: founds)
      = settled own? (settled own? current [found]) founds := by
  match found with
  | none =>
      by_cases later : none ∈ founds <;> cases own? <;> simp [settled, later]
  | some none => simp [settled]
  | some (some name) =>
      simp only [settled, List.filterMap_cons, Option.join_some, List.getLast?_cons]
      cases (founds.filterMap Option.join).getLast? <;> simp

theorem settled_none {kind : Kind} (own : Name kind) (founds : List (Option (Option (Name kind))))
    : settled (some own) none founds = fallback own founds := by
  rw [settled, fallback, Option.none_or]
  cases (founds.filterMap Option.join).getLast? <;> rfl

theorem Path.reaches_cls_iff {path : Path} {owner : ClassName}
    : path.Reaches (.cls owner) ↔ path.owner = owner := by
  cases path <;> simp [Reaches, above, Path.owner, eq_comm]

/-- An entry that is made unless it is there, and the match that was found for it. -/
structure Proposal where
  path : Path
  found : Option (Option (Name path.kind))

namespace Proposal

def edit (proposal : Proposal) : Edit 2 :=
  ⟨proposal.path, fun names =>
    names.setTarget (settled proposal.path.own? names.target [proposal.found])⟩

/-- What was found for the entry at the end of `path`. -/
def foundAt? (proposal : Proposal) (path : Path) : Option (Option (Option (Name path.kind))) :=
  if same : proposal.path = path then some (same ▸ proposal.found) else none

theorem foundAt?_self (path : Path) (found : Option (Option (Name path.kind)))
    : (Proposal.mk path found).foundAt? path = some found := by
  simp [foundAt?]

theorem foundAt?_of_ne {proposal : Proposal} {path : Path} (other : proposal.path ≠ path)
    : proposal.foundAt? path = none :=
  dif_neg other

/-- What falls on a key that may be another one, or none, counts only if it is the right one. -/
theorem bind_foundAt? {κ : Type} [DecidableEq κ] {path : κ → Path}
    (injective : Function.Injective path) (found : ∀ key, Option (Option (Name (path key).kind)))
    (key? : Option κ) (key : κ)
    : (key?.bind fun key' => (Proposal.mk (path key') (found key')).foundAt? (path key))
      = if key? = some key then some (found key) else none := by
  have apart (key' : κ) (other : key' ≠ key)
      : (Proposal.mk (path key') (found key')).foundAt? (path key) = none :=
    foundAt?_of_ne fun paths_eq => other (injective paths_eq)
  rw [bind_eq_ite apart, foundAt?_self]

end Proposal

/-- The target name is settled by what was found at the end of the path, by induction on the run. -/
theorem foldl_proposal_at (proposals : List Proposal) (path : Path) (names : Names 2 path.kind)
    : (proposals.map Proposal.edit).foldl (fun names edit => edit.at path names) names
      = names.setTarget
          (settled path.own? names.target (proposals.filterMap (·.foundAt? path))) := by
  induction proposals generalizing names with
  | nil => simp [settled, Names.setTarget_target]
  | cons proposal rest ih =>
      rw [List.map_cons, List.foldl_cons, ih, List.filterMap_cons]
      obtain ⟨changed, found⟩ := proposal
      by_cases same : changed = path
      · subst same
        rw [Proposal.foundAt?_self, settled_cons, Proposal.edit, Edit.at_self,
          Names.setTarget_setTarget, Names.target_setTarget]
      · have apart : (Proposal.mk changed found).edit.path ≠ path := same
        rw [Edit.at_of_ne apart, Proposal.foundAt?_of_ne same]

/-- An entry that proposals lead to has the name in its key and the target name that they settle. -/
theorem Table.names?_proposed (labels : Labels 2) (proposals : List Proposal) (path : Path)
    : ((Table.empty labels).applyAll (proposals.map Proposal.edit)).names? path
      = if ∃ proposal ∈ proposals, proposal.path.Reaches path then
          some (.pair path.own? (settled path.own? none (proposals.filterMap (·.foundAt? path))))
        else none := by
  have start : (Table.empty labels).names? path = none := by cases path <;> rfl
  have fresh : (freshNames path : Names 2 path.kind) = .pair path.own? none := by
    cases path <;> rfl
  rw [names?_applyAll, start, Option.getD_none, foldl_proposal_at, fresh]
  simp only [List.mem_map, exists_exists_and_eq_and]
  rfl

-----------------------------------------------------------------------------------------
-- What the entries of a table propose
-----------------------------------------------------------------------------------------

/-- What is told of classes, fields and methods comes class by class. -/
theorem Table.filterMap_entries {β : Type} {told : Entry m → Option β}
    (untold : ∀ owner method parameter, told (.parameter owner method parameter) = none)
    (table : Table m)
    : table.entries.filterMap told
      = table.classes.values.flatMap fun cls =>
          (told (.cls cls)).toList
            ++ (cls.fields.values.filterMap fun field => told (.field cls field))
            ++ cls.methods.values.filterMap fun method => told (.method cls method) := by
  rw [entries, List.filterMap_flatMap]
  simp only [Class.filterMap_entries untold]

namespace JoinColumns

variable (columns : JoinColumns m n) (left : Table m) (right : Table n)

/-- The match of an entry: of `others`, the last one that is called in the key namespace as the
entry is in the probe namespace.
-/
def match? {kind : Kind} {α : Type} (namesOf : α → Names n kind) (others : List α)
    (names : Names m kind)
    : Option α := do
  let name ← names.get columns.probe
  (others.filter fun other => (namesOf other).get columns.key = some name).getLast?

/-- The target name of the match, if there is a match. -/
def found? {kind : Kind} {α : Type} (namesOf : α → Names n kind) (others : List α)
    (names : Names m kind)
    : Option (Option (Name kind)) :=
  (columns.match? namesOf others names).map fun other => (namesOf other).get columns.target

/-- How entries are moved to the source namespace. -/
def rekey : Rekey m := .ofTable left columns.source

/-- What the entries that fall on a class found. -/
def classFounds (owner : ClassName) : List (Option (Option ClassName)) :=
  (columns.classesCalled left owner).map fun cls =>
    columns.found? Class.names right.classes.values cls.names

/-- What the entries that fall on a field found. -/
def fieldFounds (owner : ClassName) (key : FieldKey) : List (Option (Option FieldName)) :=
  ((columns.fieldsCalled left owner).filter fun field =>
      (columns.rekey left).fieldKey? field = some key).map fun field =>
    columns.found? Field.names right.fields field.names

/-- What the entries that fall on a method found. -/
def methodFounds (owner : ClassName) (key : MethodKey) : List (Option (Option MethodName)) :=
  ((columns.methodsCalled left owner).filter fun method =>
      (columns.rekey left).methodKey? method = some key).map fun method =>
    columns.found? Method.names right.methods method.names

/-- What an entry of the left table makes in the migrated one. -/
def proposal? : Entry m → Option Proposal
  | .cls cls => do
      let owner ← cls.names.get columns.source
      return ⟨.cls owner, columns.found? Class.names right.classes.values cls.names⟩
  | .field owner field => do
      let owner ← owner.names.get columns.source
      let key ← (columns.rekey left).fieldKey? field
      return ⟨.field owner key, columns.found? Field.names right.fields field.names⟩
  | .method owner method => do
      let owner ← owner.names.get columns.source
      let key ← (columns.rekey left).methodKey? method
      return ⟨.method owner key, columns.found? Method.names right.methods method.names⟩
  | .parameter _ _ _ => none

/-- The migration with these namespaces. -/
def migrating : Joining m n := { columns.joining left right with unmatched := .keepName }

theorem assign_migrating {kind : Kind} (own : Name kind) (found : Option (Option (Name kind)))
    (names : Names 2 kind)
    : (columns.migrating left right).assign own found names
      = names.setTarget (settled (some own) names.target [found]) := by
  have kept := names.setTarget_target
  match found with
  | none =>
      cases current : names.target with
      | none => simp [Joining.assign, migrating, Unmatched.pick, settled, current]
      | some name =>
          rw [current] at kept
          simp [Joining.assign, migrating, Unmatched.pick, settled, current, kept]
  | some none => simp [Joining.assign, Unmatched.pick, settled, kept]
  | some (some name) => simp [Joining.assign, Unmatched.pick, settled]

/-- Looking up the last one with a name finds the match. -/
theorem found?_eq_lookup {kind : Kind} {α : Type} (namesOf : α → Names n kind) (others : List α)
    (names : Names m kind)
    : (do
        let name ← names.get columns.probe
        let found ← lastNamed? namesOf columns.key name others
        return (namesOf found).get columns.target)
      = columns.found? namesOf others names := by
  rw [found?, match?]
  cases names.get columns.probe with
  | none => rfl
  | some name =>
      simp only [Option.bind_eq_bind, Option.bind_some, lastNamed?, List.getLast?_filter]
      cases others.reverse.find? fun other => (namesOf other).get columns.key = some name <;> rfl

/-- Every entry is migrated as its proposal says. -/
theorem edit_migrating {entry : Entry m} {edit? : Option (Edit 2)}
    (edited : (columns.migrating left right).edit entry = .ok edit?)
    : edit? = (columns.proposal? left right entry).map Proposal.edit := by
  have assigned {kind : Kind} {α : Type} (namesOf : α → Names n kind) (others : List α)
      (names : Names m kind) (own : Name kind)
      : (columns.migrating left right).assign own (do
            let name ← names.get columns.probe
            let found ← lastNamed? namesOf columns.key name others
            return (namesOf found).get columns.target)
        = fun names' => names'.setTarget
            (settled (some own) names'.target [columns.found? namesOf others names]) := by
    funext names'
    rw [assign_migrating, found?_eq_lookup]
  cases entry with
  | cls cls =>
      obtain rfl := Except.ok.inj edited
      change (cls.names.get columns.source).bind _ = _
      rw [proposal?]
      cases cls.names.get columns.source with
      | none => rfl
      | some owner =>
          exact congrArg (fun change => some (Edit.mk (.cls owner) change))
            (assigned Class.names right.classes.values cls.names owner)
  | field owner field =>
      obtain ⟨key?, keyed, same⟩ := Outcome.bind_eq_ok_iff.mp edited
      obtain rfl := Except.ok.inj same
      obtain ⟨_, rfl⟩ := (Rekey.fieldKey_eq_ok_iff _).mp keyed
      rw [proposal?]
      change Option.map _ (Option.bind (owner.names.get columns.source) fun ownerName =>
        Option.map (ownerName, ·) ((columns.rekey left).fieldKey? field)) = _
      cases owner.names.get columns.source with
      | none => rfl
      | some ownerName =>
          cases (columns.rekey left).fieldKey? field with
          | none => rfl
          | some key =>
              exact congrArg (fun change => some (Edit.mk (.field ownerName key) change))
                (assigned Field.names right.fields field.names key.name)
  | method owner method =>
      obtain ⟨key?, keyed, same⟩ := Outcome.bind_eq_ok_iff.mp edited
      obtain rfl := Except.ok.inj same
      obtain ⟨_, rfl⟩ := (Rekey.methodKey_eq_ok_iff _).mp keyed
      rw [proposal?]
      change Option.map _ (Option.bind (owner.names.get columns.source) fun ownerName =>
        Option.map (ownerName, ·) ((columns.rekey left).methodKey? method)) = _
      cases owner.names.get columns.source with
      | none => rfl
      | some ownerName =>
          cases (columns.rekey left).methodKey? method with
          | none => rfl
          | some key =>
              exact congrArg (fun change => some (Edit.mk (.method ownerName key) change))
                (assigned Method.names right.methods method.names key.name)
  | parameter owner method parameter =>
      obtain rfl := Except.ok.inj edited
      rfl

/-- All that the entries of the left table propose, in their order. -/
def proposals : List Proposal := left.entries.filterMap (columns.proposal? left right)

/-- Whatever concerns a class comes from those of the left table that are called like it. -/
theorem filterMap_proposals {β : Type} {told : Proposal → Option β} (owner : ClassName)
    (apart : ∀ proposal, proposal.path.owner ≠ owner → told proposal = none)
    : (columns.proposals left right).filterMap told
      = (columns.classesCalled left owner).flatMap fun cls =>
          (told ⟨.cls owner, columns.found? Class.names right.classes.values cls.names⟩).toList
            ++ (cls.fields.values.filterMap fun field =>
                ((columns.rekey left).fieldKey? field).bind fun key =>
                  told ⟨.field owner key, columns.found? Field.names right.fields field.names⟩)
            ++ cls.methods.values.filterMap fun method =>
                ((columns.rekey left).methodKey? method).bind fun key =>
                  told ⟨.method owner key,
                    columns.found? Method.names right.methods method.names⟩ := by
  have at_cls (cls : Class m)
      : (columns.proposal? left right (.cls cls)).bind told
        = (cls.names.get columns.source).bind fun owner =>
            told ⟨.cls owner, columns.found? Class.names right.classes.values cls.names⟩ := by
    rw [proposal?]
    cases cls.names.get columns.source <;> rfl
  have at_field (cls : Class m) (field : Field m)
      : (columns.proposal? left right (.field cls field)).bind told
        = (cls.names.get columns.source).bind fun owner =>
            ((columns.rekey left).fieldKey? field).bind fun key =>
              told ⟨.field owner key, columns.found? Field.names right.fields field.names⟩ := by
    rw [proposal?]
    cases cls.names.get columns.source <;> cases (columns.rekey left).fieldKey? field <;> rfl
  have at_method (cls : Class m) (method : Method m)
      : (columns.proposal? left right (.method cls method)).bind told
        = (cls.names.get columns.source).bind fun owner =>
            ((columns.rekey left).methodKey? method).bind fun key =>
              told ⟨.method owner key,
                columns.found? Method.names right.methods method.names⟩ := by
    rw [proposal?]
    cases cls.names.get columns.source <;> cases (columns.rekey left).methodKey? method <;> rfl
  rw [proposals, List.filterMap_filterMap, Table.filterMap_entries fun _ _ _ => rfl]
  simp only [at_cls, at_field, at_method]
  rw [classesCalled, ← flatMap_filter_of_eq_nil (p := fun cls => cls.names.get columns.source
    = some owner)]
  · apply List.flatMap_congr
    intro cls called
    have called : cls.names.get columns.source = some owner := by
      simpa using (List.mem_filter.mp called).2
    simp [called, List.filterMap_eq_flatMap_toList]
  · intro cls _ other
    have other : cls.names.get columns.source ≠ some owner := by simpa using other
    cases called : cls.names.get columns.source with
    | none => simp
    | some owner' =>
        have elsewhere : owner' ≠ owner := fun same => other (by rw [called, same])
        have untold := apart
          ⟨.cls owner', columns.found? Class.names right.classes.values cls.names⟩ elsewhere
        have untold_field (field : Field m) (key : FieldKey) := apart
          ⟨.field owner' key, columns.found? Field.names right.fields field.names⟩ elsewhere
        have untold_method (method : Method m) (key : MethodKey) := apart
          ⟨.method owner' key, columns.found? Method.names right.methods method.names⟩ elsewhere
        simp [untold, untold_field, untold_method]

theorem foundAt?_of_owner_ne (path : Path) (proposal : Proposal)
    (other : proposal.path.owner ≠ path.owner)
    : proposal.foundAt? path = none :=
  Proposal.foundAt?_of_ne fun same => other (congrArg Path.owner same)

/-- The classes with a name tell what is found for it. -/
theorem filterMap_proposals_cls (owner : ClassName)
    : (columns.proposals left right).filterMap (·.foundAt? (.cls owner))
      = columns.classFounds left right owner := by
  rw [columns.filterMap_proposals left right owner (foundAt?_of_owner_ne (.cls owner)), classFounds,
    List.map_eq_flatMap]
  simp [Proposal.foundAt?_self, Proposal.foundAt?_of_ne]

/-- The fields with a key tell what is found for it. -/
theorem filterMap_proposals_field (owner : ClassName) (key : FieldKey)
    : (columns.proposals left right).filterMap (·.foundAt? (.field owner key))
      = columns.fieldFounds left right owner key := by
  have at_key (field : Field m) := Proposal.bind_foundAt?
    (fun _ _ same => ((Path.field.injEq ..).mp same).2 : Function.Injective (Path.field owner))
    (fun _ => columns.found? Field.names right.fields field.names)
    ((columns.rekey left).fieldKey? field) key
  rw [columns.filterMap_proposals left right owner (foundAt?_of_owner_ne (.field owner key)),
    fieldFounds, fieldsCalled, ← List.filterMap_eq_map', List.filterMap_filter,
    List.filterMap_flatMap]
  simp [at_key, Proposal.foundAt?_of_ne]

/-- The methods with a key tell what is found for it. -/
theorem filterMap_proposals_method (owner : ClassName) (key : MethodKey)
    : (columns.proposals left right).filterMap (·.foundAt? (.method owner key))
      = columns.methodFounds left right owner key := by
  have at_key (method : Method m) := Proposal.bind_foundAt?
    (fun _ _ same => ((Path.method.injEq ..).mp same).2 : Function.Injective (Path.method owner))
    (fun _ => columns.found? Method.names right.methods method.names)
    ((columns.rekey left).methodKey? method) key
  rw [columns.filterMap_proposals left right owner (foundAt?_of_owner_ne (.method owner key)),
    methodFounds, methodsCalled, ← List.filterMap_eq_map', List.filterMap_filter,
    List.filterMap_flatMap]
  simp [at_key, Proposal.foundAt?_of_ne]

theorem kind_ne_parameter_of_mem_proposals {proposal : Proposal}
    (member : proposal ∈ columns.proposals left right)
    : proposal.path.kind ≠ .parameter := by
  obtain ⟨entry, _, proposed⟩ := List.mem_filterMap.mp member
  cases entry with
  | cls cls =>
      obtain ⟨_, _, same⟩ := Option.bind_eq_some_iff.mp proposed
      obtain rfl := Option.some.inj same
      simp
  | field owner field =>
      obtain ⟨_, _, keyed⟩ := Option.bind_eq_some_iff.mp proposed
      obtain ⟨_, _, same⟩ := Option.bind_eq_some_iff.mp keyed
      obtain rfl := Option.some.inj same
      simp
  | method owner method =>
      obtain ⟨_, _, keyed⟩ := Option.bind_eq_some_iff.mp proposed
      obtain ⟨_, _, same⟩ := Option.bind_eq_some_iff.mp keyed
      obtain rfl := Option.some.inj same
      simp
  | parameter => cases proposed

/-- A member is there if something is proposed for it, since nothing leads through it. -/
theorem reaches_member_iff {path : Path} (member : path.kind = .field ∨ path.kind = .method)
    : (∃ proposal ∈ columns.proposals left right, proposal.path.Reaches path)
      ↔ (columns.proposals left right).filterMap (·.foundAt? path) ≠ [] := by
  constructor
  · intro given
    rcases given with ⟨⟨changed, found⟩, listed, rfl | above⟩
    · apply List.ne_nil_of_mem
      exact List.mem_filterMap.mpr ⟨_, listed, Proposal.foundAt?_self _ found⟩
    · have not_parameter := columns.kind_ne_parameter_of_mem_proposals left right listed
      cases changed with
      | cls | field | method => simp_all [Path.above]
      | parameter => exact absurd rfl not_parameter
  · intro told
    obtain ⟨found, among⟩ := List.exists_mem_of_ne_nil _ told
    obtain ⟨proposal, listed, found_at⟩ := List.mem_filterMap.mp among
    refine ⟨proposal, listed, Or.inl ?_⟩
    apply Classical.byContradiction
    intro other
    rw [Proposal.foundAt?_of_ne (Ne.symm other)] at found_at
    cases found_at

/-- A class is there if one has its name, since the members of a class come with it. -/
theorem reaches_cls_iff (owner : ClassName)
    : (∃ proposal ∈ columns.proposals left right, proposal.path.Reaches (.cls owner))
      ↔ columns.classFounds left right owner ≠ [] := by
  have there : (∃ proposal ∈ columns.proposals left right, proposal.path.Reaches (.cls owner))
      ↔ (columns.proposals left right).filterMap
          (fun proposal => if proposal.path.owner = owner then some () else none) ≠ [] := by
    simp [Path.reaches_cls_iff, List.filterMap_eq_nil_iff]
  rw [there, columns.filterMap_proposals left right owner fun _ other => if_neg other]
  simp [classFounds, Path.owner, List.eq_nil_iff_forall_not_mem]

end JoinColumns

/-- The target names of a migration are told by what was found for the entries on each key. -/
theorem Table.names?_migrated {labels : Labels 2} {proposals : List Proposal} {path : Path}
    {own : Name path.kind} {founds : List (Option (Option (Name path.kind)))}
    (named : path.own? = some own) (found : proposals.filterMap (·.foundAt? path) = founds)
    (there : (∃ proposal ∈ proposals, proposal.path.Reaches path) ↔ founds ≠ [])
    : ((Table.empty labels).applyAll (proposals.map Proposal.edit)).names? path
      = fallbackNames? own founds := by
  rw [names?_proposed, found, named, settled_none]
  cases founds with
  | nil => exact if_neg (there.not.mpr (not_not.mpr rfl))
  | cons first rest => exact if_pos (there.mpr (List.cons_ne_nil first rest))

/-- A migration makes what the proposals of the entries do. -/
theorem Table.migrate_eq_proposed {old : Table m} {new : Table n}
    {matching named source target : String} {result : Table 2}
    (succeeds : old.migrate new matching named source target = .ok result)
    : ∃ columns : JoinColumns m n,
        columns.Labelled old new ⟨named, matching, named, matching⟩
        ∧ ∃ labels, result
            = (Table.empty labels).applyAll ((columns.proposals old new).map Proposal.edit) := by
  obtain ⟨columns, labelled⟩ := exists_labelled_of_joinWith_eq_ok succeeds
  rw [migrate, joinWith_eq_of_labelled labelled] at succeeds
  obtain ⟨labels, _, succeeds⟩ := Outcome.bind_eq_ok_iff.mp succeeds
  obtain ⟨edits, edited, succeeds⟩ := Outcome.bind_eq_ok_iff.mp succeeds
  have edits_eq := Outcome.eq_map_of_mapM_eq_ok
    (fun entry edit? => columns.edit_migrating old new) edited
  refine ⟨columns, labelled, labels, ?_⟩
  rw [← Except.ok.inj succeeds, edits_eq, JoinColumns.proposals, List.map_filterMap,
    List.filterMap_map]
  rfl

/-- A migration that succeeds has an entry for every key that entries of the old table fall on. It
is called as the last match of them that has a name. Without such a match it keeps its own name if
any of them has no match, and is not called anything if all matches are nameless.
-/
theorem Table.migrate_fallback {old : Table m} {new : Table n}
    {matching named source target : String} {result : Table 2}
    (succeeds : old.migrate new matching named source target = .ok result)
    : ∃ columns : JoinColumns m n,
        columns.Labelled old new ⟨named, matching, named, matching⟩
        ∧ (∀ owner,
            result.names? (.cls owner)
              = fallbackNames? owner (columns.classFounds old new owner))
        ∧ (∀ owner key,
            result.names? (.field owner key)
              = fallbackNames? key.name (columns.fieldFounds old new owner key))
        ∧ ∀ owner key,
            result.names? (.method owner key)
              = fallbackNames? key.name (columns.methodFounds old new owner key) := by
  obtain ⟨columns, labelled, labels, rfl⟩ := migrate_eq_proposed succeeds
  refine ⟨columns, labelled, fun owner => ?_, fun owner key => ?_, fun owner key => ?_⟩
  · exact names?_migrated rfl (columns.filterMap_proposals_cls old new owner)
      (columns.reaches_cls_iff old new owner)
  · have found := columns.filterMap_proposals_field old new owner key
    exact names?_migrated rfl found (found ▸ columns.reaches_member_iff old new (Or.inl rfl))
  · have found := columns.filterMap_proposals_method old new owner key
    exact names?_migrated rfl found (found ▸ columns.reaches_member_iff old new (Or.inr rfl))

/-- Four classes with one name, and two with another one. Two methods that refer to them fall on one
key, and a field and a further method do not collide.
-/
def Table.colliding : Table 3 :=
  (Table.empty ⟨#v["obf", "inter", "named"]⟩).declareAll
    [⟨.cls ⟨"x"⟩, ⟨#v[some ⟨"x"⟩, some ⟨"I1"⟩, some ⟨"N"⟩]⟩⟩,
      ⟨.field ⟨"x"⟩ ⟨⟨"f"⟩, none⟩, ⟨#v[some ⟨"f"⟩, some ⟨"F1"⟩, some ⟨"g"⟩]⟩⟩,
      ⟨.method ⟨"x"⟩ ⟨⟨"k"⟩, ⟨"(Lx;Lp;)V"⟩⟩, ⟨#v[some ⟨"k"⟩, some ⟨"M1"⟩, some ⟨"run"⟩]⟩⟩,
      ⟨.cls ⟨"y"⟩, ⟨#v[some ⟨"y"⟩, some ⟨"I2"⟩, some ⟨"N"⟩]⟩⟩,
      ⟨.method ⟨"y"⟩ ⟨⟨"l"⟩, ⟨"(Ly;Lq;)V"⟩⟩, ⟨#v[some ⟨"l"⟩, some ⟨"M2"⟩, some ⟨"run"⟩]⟩⟩,
      ⟨.method ⟨"y"⟩ ⟨⟨"s"⟩, ⟨"()Lw;"⟩⟩, ⟨#v[some ⟨"s"⟩, none, some ⟨"next"⟩]⟩⟩,
      ⟨.cls ⟨"z"⟩, ⟨#v[some ⟨"z"⟩, some ⟨"I3"⟩, some ⟨"N"⟩]⟩⟩,
      ⟨.cls ⟨"w"⟩, ⟨#v[some ⟨"w"⟩, some ⟨"I4"⟩, some ⟨"N"⟩]⟩⟩,
      ⟨.cls ⟨"p"⟩, ⟨#v[some ⟨"p"⟩, some ⟨"I5"⟩, some ⟨"M"⟩]⟩⟩,
      ⟨.cls ⟨"q"⟩, ⟨#v[some ⟨"q"⟩, some ⟨"I2"⟩, some ⟨"M"⟩]⟩⟩]

/-- Matches four of the entries, and has a name for two of them. -/
def Table.partlyNamed : Table 2 :=
  (Table.empty ⟨#v["inter", "named"]⟩).declareAll
    [⟨.cls ⟨"I3"⟩, .pair (some ⟨"I3"⟩) (some ⟨"Z"⟩)⟩,
      ⟨.field ⟨"I3"⟩ ⟨⟨"F1"⟩, none⟩, .pair (some ⟨"F1"⟩) none⟩,
      ⟨.method ⟨"I3"⟩ ⟨⟨"M1"⟩, ⟨"(LI3;)V"⟩⟩, .pair (some ⟨"M1"⟩) (some ⟨"start"⟩)⟩,
      ⟨.cls ⟨"I2"⟩, .pair (some ⟨"I2"⟩) none⟩]

theorem Table.migrate_colliding
    : ∃ result,
        colliding.migrate partlyNamed "inter" "named" "old" "new" = .ok result
        ∧ result.names? (.cls ⟨"N"⟩) = some (.pair (some ⟨"N"⟩) (some ⟨"Z"⟩))
        ∧ result.names? (.cls ⟨"M"⟩) = some (.pair (some ⟨"M"⟩) (some ⟨"M"⟩))
        ∧ result.names? (.field ⟨"N"⟩ ⟨⟨"g"⟩, none⟩) = some (.pair (some ⟨"g"⟩) none)
        ∧ result.names? (.method ⟨"N"⟩ ⟨⟨"run"⟩, ⟨"(LN;LM;)V"⟩⟩)
          = some (.pair (some ⟨"run"⟩) (some ⟨"start"⟩))
        ∧ result.names? (.method ⟨"N"⟩ ⟨⟨"next"⟩, ⟨"()LN;"⟩⟩)
          = some (.pair (some ⟨"next"⟩) (some ⟨"next"⟩))
        ∧ ∃ columns : JoinColumns 3 2,
            columns.Labelled colliding partlyNamed ⟨"named", "inter", "named", "inter"⟩
            ∧ (∀ owner,
                result.names? (.cls owner)
                  = fallbackNames? owner (columns.classFounds colliding partlyNamed owner))
            ∧ (∀ owner key,
                result.names? (.field owner key)
                  = fallbackNames? key.name
                      (columns.fieldFounds colliding partlyNamed owner key))
            ∧ ∀ owner key,
                result.names? (.method owner key)
                  = fallbackNames? key.name
                      (columns.methodFounds colliding partlyNamed owner key) := by
  have migrates : colliding.migrate partlyNamed "inter" "named" "old" "new"
      = .ok ((Table.empty ⟨#v["old", "new"]⟩).declareAll
          [⟨.cls ⟨"N"⟩, .pair (some ⟨"N"⟩) (some ⟨"Z"⟩)⟩,
            ⟨.field ⟨"N"⟩ ⟨⟨"g"⟩, none⟩, .pair (some ⟨"g"⟩) none⟩,
            ⟨.method ⟨"N"⟩ ⟨⟨"run"⟩, ⟨"(LN;LM;)V"⟩⟩, .pair (some ⟨"run"⟩) (some ⟨"start"⟩)⟩,
            ⟨.method ⟨"N"⟩ ⟨⟨"next"⟩, ⟨"()LN;"⟩⟩, .pair (some ⟨"next"⟩) (some ⟨"next"⟩)⟩,
            ⟨.cls ⟨"M"⟩, .pair (some ⟨"M"⟩) (some ⟨"M"⟩)⟩]) := by
    decide +kernel
  exact ⟨_, migrates, by decide, by decide, by decide, by decide, by decide,
    migrate_fallback migrates⟩

end NameTables
