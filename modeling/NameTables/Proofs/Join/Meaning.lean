import Mathlib.Data.List.Basic
import NameTables.Join
import NameTables.Proofs.Table.Declarations
import NameTables.Proofs.Table.Rekeys
import NameTables.Proofs.Table.Retargets

/-! The meaning of a join.
A join is described entry by entry: which keys it has and in which order, and from which match each
target name comes. Several entries of the left table may fall on one key, and each may or may not
have a match with a name.
-/

namespace NameTables

variable {m n : Nat}

/-- The namespaces of a join: the left table is moved to `source` and matched by `probe`, the right
one is matched by `key` and names the result by `target`.
-/
structure JoinColumns (m n : Nat) where
  source : Fin m
  probe : Fin m
  target : Fin n
  key : Fin n

namespace JoinColumns

variable (columns : JoinColumns m n) (left : Table m) (right : Table n)

/-- The namespaces are the first ones with their labels. -/
def Labelled (labels : JoinLabels) : Prop :=
  left.labels.find? labels.source = some columns.source
  ∧ left.labels.find? labels.probe = some columns.probe
  ∧ right.labels.find? labels.target = some columns.target
  ∧ right.labels.find? labels.key = some columns.key

theorem Labelled.unique {columns columns' : JoinColumns m n} {left : Table m} {right : Table n}
    {labels : JoinLabels} (labelled : columns.Labelled left right labels)
    (labelled' : columns'.Labelled left right labels)
    : columns = columns' := by
  obtain ⟨source, probe, target, key⟩ := labelled
  obtain ⟨source', probe', target', key'⟩ := labelled'
  cases columns
  cases columns'
  simp_all

/-- The name of a class in the source namespace, or else its own. -/
def sourceName (name : ClassName) : ClassName :=
  ((left.class? name).bind fun cls => cls.names.get columns.source).getD name

/-- The key that a field moves to. -/
def fieldKey? (field : Field m) : Option FieldKey :=
  (field.names.get columns.source).map fun name =>
    ⟨name, field.descriptor.map (Descriptor.renamed (columns.sourceName left))⟩

/-- The key that a method moves to. -/
def methodKey? (method : Method m) : Option MethodKey :=
  (method.names.get columns.source).map fun name =>
    ⟨name, method.descriptor.renamed (columns.sourceName left)⟩

/-- The target name of a match: of `others`, the last one that is called in the key namespace as
the entry is in the probe namespace.
-/
def matchTarget? {kind : Kind} {α : Type} (namesOf : α → Names n kind) (others : List α)
    (names : Names m kind)
    : Option (Name kind) := do
  let name ← names.get columns.probe
  let found ← (others.filter fun other => (namesOf other).get columns.key = some name).getLast?
  (namesOf found).get columns.target

/-- The classes of the left table that are called `owner` in the source namespace. -/
def classesCalled (owner : ClassName) : List (Class m) :=
  left.classes.values.filter fun cls => cls.names.get columns.source = some owner

def fieldsCalled (owner : ClassName) : List (Field m) :=
  (columns.classesCalled left owner).flatMap fun cls => cls.fields.values

def methodsCalled (owner : ClassName) : List (Method m) :=
  (columns.classesCalled left owner).flatMap fun cls => cls.methods.values

/-- The field that all those with a key fall on. -/
def joinedField (owner : ClassName) (key : FieldKey) : Field 2 where
  descriptor := key.descriptor
  names := .pair (some key.name)
    (((columns.fieldsCalled left owner).filter fun field =>
        columns.fieldKey? left field = some key).filterMap
      fun field => columns.matchTarget? Field.names right.fields field.names).getLast?

def joinedMethod (owner : ClassName) (key : MethodKey) : Method 2 where
  descriptor := key.descriptor
  names := .pair (some key.name)
    (((columns.methodsCalled left owner).filter fun method =>
        columns.methodKey? left method = some key).filterMap
      fun method => columns.matchTarget? Method.names right.methods method.names).getLast?
  parameters := .empty

def joinedClass (owner : ClassName) : Class 2 where
  names := .pair (some owner)
    ((columns.classesCalled left owner).filterMap
      fun cls => columns.matchTarget? Class.names right.classes.values cls.names).getLast?
  fields := .ofKeys ((columns.fieldsCalled left owner).filterMap (columns.fieldKey? left))
    (columns.joinedField left right owner)
  methods := .ofKeys ((columns.methodsCalled left owner).filterMap (columns.methodKey? left))
    (columns.joinedMethod left right owner)

/-- All that a join has, in its order. -/
def joined (labels : Labels 2) : Table 2 where
  labels
  classes := .ofKeys (left.classes.values.filterMap fun cls => cls.names.get columns.source)
    (columns.joinedClass left right)

-----------------------------------------------------------------------------------------
-- Entries of the left table as a run
-----------------------------------------------------------------------------------------

/-- What an entry of the left table makes in the joined one. -/
def retarget? : Entry m → Option Retarget
  | .cls cls => do
      let owner ← cls.names.get columns.source
      return ⟨.cls owner, columns.matchTarget? Class.names right.classes.values cls.names⟩
  | .field owner field => do
      let owner ← owner.names.get columns.source
      let key ← columns.fieldKey? left field
      return ⟨.field owner key, columns.matchTarget? Field.names right.fields field.names⟩
  | .method owner method => do
      let owner ← owner.names.get columns.source
      let key ← columns.methodKey? left method
      return ⟨.method owner key, columns.matchTarget? Method.names right.methods method.names⟩
  | .parameter _ _ _ => none

def retargets : List Retarget := left.entries.filterMap (columns.retarget? left right)

/-- The join with these namespaces. -/
def joining : Joining m n where
  rekey := .ofTable left columns.source
  probe := columns.probe
  target := columns.target
  index := ⟨right, columns.key⟩
  unmatched := .absent

/-- Without a match that has a name the target stays. -/
theorem assign_joining {kind : Kind} (own : Name kind) (found : Option (Option (Name kind)))
    (names : Names 2 kind)
    : (columns.joining left right).assign own found names
      = names.setTarget (found.join.or names.target) := by
  have kept := names.setTarget_target
  cases found with
  | none => simp [Joining.assign, joining, Unmatched.pick, kept]
  | some name => cases name <;> simp [Joining.assign, Unmatched.pick, kept]

/-- A match is looked up before it is asked for its target name. -/
theorem matchTarget?_eq_join {kind : Kind} {α : Type} (namesOf : α → Names n kind)
    (others : List α) (names : Names m kind)
    : columns.matchTarget? namesOf others names
      = Option.join (do
          let name ← names.get columns.probe
          let found ← lastNamed? namesOf columns.key name others
          return (namesOf found).get columns.target) := by
  rw [matchTarget?]
  cases names.get columns.probe with
  | none => rfl
  | some name =>
      simp only [Option.bind_eq_bind, Option.bind_some, lastNamed?, List.getLast?_filter]
      cases others.reverse.find? fun other => (namesOf other).get columns.key = some name <;> rfl

/-- An entry keeps its target unless its match has one. -/
theorem assign_match {kind : Kind} {α : Type} (namesOf : α → Names n kind) (others : List α)
    (names : Names m kind) (own : Name kind)
    : (columns.joining left right).assign own (do
          let name ← names.get columns.probe
          let found ← lastNamed? namesOf columns.key name others
          return (namesOf found).get columns.target)
      = fun names' =>
          names'.setTarget ((columns.matchTarget? namesOf others names).or names'.target) := by
  funext names'
  rw [assign_joining, ← matchTarget?_eq_join]

/-- What an entry of the left table makes under the key that it moves to. -/
def retargetUnder? (rekey : Rekey m) : Entry m → Option Retarget
  | .cls cls => do
      let owner ← cls.names.get rekey.column
      return ⟨.cls owner, columns.matchTarget? Class.names right.classes.values cls.names⟩
  | .field owner field => do
      let owner ← owner.names.get rekey.column
      let key ← rekey.fieldKey? field
      return ⟨.field owner key, columns.matchTarget? Field.names right.fields field.names⟩
  | .method owner method => do
      let owner ← owner.names.get rekey.column
      let key ← rekey.methodKey? method
      return ⟨.method owner key, columns.matchTarget? Method.names right.methods method.names⟩
  | .parameter _ _ _ => none

/-- Every entry is joined under its new key, whatever the tables are. -/
theorem edit_eq_ok {entry : Entry m} {edit? : Option (Edit 2)}
    (edited : (columns.joining left right).edit entry = .ok edit?)
    : edit? = (columns.retargetUnder? right (columns.joining left right).rekey entry).map
        Retarget.edit := by
  cases entry with
  | cls cls =>
      obtain rfl := Except.ok.inj edited
      change (cls.names.get columns.source).bind _
        = ((cls.names.get columns.source).bind _).map Retarget.edit
      cases cls.names.get columns.source with
      | none => rfl
      | some owner =>
          exact congrArg (fun change => some (Edit.mk (.cls owner) change))
            (columns.assign_match left right Class.names right.classes.values cls.names owner)
  | field owner field =>
      obtain ⟨key?, keyed, same⟩ := Outcome.bind_eq_ok_iff.mp edited
      obtain rfl := Except.ok.inj same
      obtain ⟨_, rfl⟩ := (Rekey.fieldKey_eq_ok_iff _).mp keyed
      rw [retargetUnder?]
      cases owner.names.get (columns.joining left right).rekey.column with
      | none => rfl
      | some ownerName =>
          cases (columns.joining left right).rekey.fieldKey? field with
          | none => rfl
          | some key =>
              exact congrArg (fun change => some (Edit.mk (.field ownerName key) change))
                (columns.assign_match left right Field.names right.fields field.names key.name)
  | method owner method =>
      obtain ⟨key?, keyed, same⟩ := Outcome.bind_eq_ok_iff.mp edited
      obtain rfl := Except.ok.inj same
      obtain ⟨_, rfl⟩ := (Rekey.methodKey_eq_ok_iff _).mp keyed
      rw [retargetUnder?]
      cases owner.names.get (columns.joining left right).rekey.column with
      | none => rfl
      | some ownerName =>
          cases (columns.joining left right).rekey.methodKey? method with
          | none => rfl
          | some key =>
              exact congrArg (fun change => some (Edit.mk (.method ownerName key) change))
                (columns.assign_match left right Method.names right.methods method.names key.name)
  | parameter owner method parameter =>
      obtain rfl := Except.ok.inj edited
      rfl

theorem newName_joining {left : Table m} (coherent : left.Coherent)
    : (columns.joining left right).rekey.newName = columns.sourceName left :=
  funext (Rekey.newName_ofTable coherent columns.source)

/-- In a coherent table the keys are those that a join describes. -/
theorem retargetUnder?_joining {left : Table m} (coherent : left.Coherent)
    : columns.retargetUnder? right (columns.joining left right).rekey
      = columns.retarget? left right := by
  have rekey_eq : (columns.joining left right).rekey
      = ⟨columns.source, columns.sourceName left⟩ :=
    congrArg (Rekey.mk columns.source) (columns.newName_joining right coherent)
  rw [rekey_eq]
  funext entry
  cases entry <;> rfl

end JoinColumns

/-- A join that succeeds makes what its entries make under their new keys. -/
theorem Table.join_eq_retargetUnder {left : Table m} {right : Table n} {labels : JoinLabels}
    {result : Table 2} (succeeds : left.join right labels = .ok result)
    : ∃ columns : JoinColumns m n, columns.Labelled left right labels
        ∧ result = retargeted ⟨#v[labels.source, labels.target]⟩
            (left.entries.filterMap
              (columns.retargetUnder? right (columns.joining left right).rekey)) := by
  unfold join joinWith at succeeds
  obtain ⟨source, found_source, succeeds⟩ := Outcome.bind_eq_ok_iff.mp succeeds
  obtain ⟨probe, found_probe, succeeds⟩ := Outcome.bind_eq_ok_iff.mp succeeds
  obtain ⟨target, found_target, succeeds⟩ := Outcome.bind_eq_ok_iff.mp succeeds
  obtain ⟨key, found_key, succeeds⟩ := Outcome.bind_eq_ok_iff.mp succeeds
  obtain ⟨joined, labelled, succeeds⟩ := Outcome.bind_eq_ok_iff.mp succeeds
  obtain ⟨edits, edited, succeeds⟩ := Outcome.bind_eq_ok_iff.mp succeeds
  let columns : JoinColumns m n := ⟨source, probe, target, key⟩
  refine ⟨columns, ⟨Labels.resolve_eq_ok_iff.mp found_source,
    Labels.resolve_eq_ok_iff.mp found_probe, Labels.resolve_eq_ok_iff.mp found_target,
    Labels.resolve_eq_ok_iff.mp found_key⟩, ?_⟩
  have joined_eq := (Labels.pair_eq_ok_iff.mp labelled).2
  have edits_eq := Outcome.eq_map_of_mapM_eq_ok
    (fun entry edit? => columns.edit_eq_ok left right) edited
  rw [← Except.ok.inj succeeds, joined_eq, edits_eq, retargeted, List.map_filterMap,
    List.filterMap_map]
  rfl

/-- A join of a coherent table makes what the run of the entries does. -/
theorem Table.join_eq_retargeted {left : Table m} {right : Table n} {labels : JoinLabels}
    {result : Table 2} (coherent : left.Coherent) (succeeds : left.join right labels = .ok result)
    : ∃ columns : JoinColumns m n, columns.Labelled left right labels
        ∧ result = retargeted ⟨#v[labels.source, labels.target]⟩
            (columns.retargets left right) := by
  obtain ⟨columns, labelled, rfl⟩ := join_eq_retargetUnder succeeds
  rw [columns.retargetUnder?_joining right coherent]
  exact ⟨columns, labelled, rfl⟩

-----------------------------------------------------------------------------------------
-- A run tells of a class what the classes called like it make
-----------------------------------------------------------------------------------------

/-- Items that yield nothing may be left out, by list induction. -/
theorem flatMap_filter_of_eq_nil {α β : Type} {p : α → Bool} {yield : α → List β}
    {items : List α} (nothing : ∀ a ∈ items, p a = false → yield a = [])
    : (items.filter p).flatMap yield = items.flatMap yield := by
  induction items with
  | nil => rfl
  | cons a items ih =>
      obtain ⟨here, later⟩ := List.forall_mem_cons.mp nothing
      rw [List.flatMap_cons, List.filter_cons, ← ih later]
      split
      · rw [List.flatMap_cons]
      · next out => rw [here (Bool.eq_false_iff.mpr out), List.nil_append]

/-- What concerns one key comes from the items that have that key. -/
theorem filterMap_flatMap_keyed {α β γ κ : Type} [DecidableEq κ] {items : List α}
    {key? : α → Option κ} {made : κ → α → List β} {told : β → Option γ} {key : κ}
    (apart : ∀ key', key' ≠ key → ∀ a, ∀ b ∈ made key' a, told b = none)
    : (items.flatMap fun a => (key? a).toList.flatMap fun key' => made key' a).filterMap told
      = (items.filter fun a => key? a = some key).flatMap fun a => (made key a).filterMap told := by
  rw [List.filterMap_flatMap, ← flatMap_filter_of_eq_nil (p := fun a => key? a = some key)]
  · apply List.flatMap_congr
    intro a member
    have keyed : key? a = some key := by simpa using (List.mem_filter.mp member).2
    rw [keyed, Option.toList_some, List.flatMap_singleton]
  · intro a _ other
    have other : key? a ≠ some key := by simpa using other
    rw [List.filterMap_eq_nil_iff]
    intro b member
    obtain ⟨key', keyed, member⟩ := List.mem_flatMap.mp member
    refine apart key' ?_ a b member
    rintro rfl
    exact other (Option.mem_toList.mp keyed)

/-- Keys of what is made stand in the order of the items, if each item that has a key makes
something, and only under that key.
-/
theorem eraseDups_flatMap_keyed {α β κ : Type} [DecidableEq κ] {items : List α}
    {key? : α → Option κ} {made : κ → α → List β} {keyOf : β → κ}
    (nonempty : ∀ key a, made key a ≠ []) (own : ∀ key a, ∀ b ∈ made key a, keyOf b = key)
    : ((items.flatMap fun a => (key? a).toList.flatMap fun key => made key a).map keyOf).eraseDups
      = (items.filterMap key?).eraseDups := by
  rw [List.map_flatMap]
  apply OrderedMap.eraseDups_flatMap
  intro a _
  cases key? a with
  | none => exact ⟨[], rfl, List.nil_subset _⟩
  | some key =>
      obtain ⟨first, rest, split⟩ := List.exists_cons_of_ne_nil (nonempty key a)
      have own_first : keyOf first = key := own key a first (split ▸ List.mem_cons_self)
      refine ⟨rest.map keyOf, by simp [split, own_first], fun key' member => ?_⟩
      obtain ⟨b, listed, rfl⟩ := List.mem_map.mp member
      simp [own key a b (split ▸ List.mem_cons_of_mem first listed)]

/-- What is told of a class comes before what is told of its members. -/
theorem Class.filterMap_entries {β : Type} {told : Entry m → Option β}
    (untold : ∀ owner method parameter, told (.parameter owner method parameter) = none)
    (cls : Class m)
    : cls.entries.filterMap told
      = (told (.cls cls)).toList
        ++ (cls.fields.values.filterMap fun field => told (.field cls field))
        ++ cls.methods.values.filterMap fun method => told (.method cls method) := by
  have cons {α : Type} (f : α → Option β) (first : α) (rest : List α)
      : (first :: rest).filterMap f = (f first).toList ++ rest.filterMap f := by
    rw [List.filterMap_cons]
    cases f first <;> rfl
  rw [entries, List.filterMap_append, cons, List.filterMap_map, List.filterMap_flatMap,
    List.filterMap_eq_flatMap_toList (fun method => told (.method cls method))]
  congr 2
  funext method
  have nothing
      : (method.parameters.values.map (Entry.parameter cls method)).filterMap told = [] := by
    rw [List.filterMap_map, List.filterMap_eq_nil_iff]
    exact fun parameter _ => untold cls method parameter
  rw [Method.entries, cons, nothing, List.append_nil]

namespace JoinColumns

variable (columns : JoinColumns m n) (left : Table m) (right : Table n)

/-- What a class that is called `owner` makes, with its members. -/
def retargetsIn (owner : ClassName) (cls : Class m) : List Retarget :=
  ⟨.cls owner, columns.matchTarget? Class.names right.classes.values cls.names⟩
    :: (cls.fields.values.filterMap fun field =>
        (columns.fieldKey? left field).map fun key =>
          ⟨.field owner key, columns.matchTarget? Field.names right.fields field.names⟩)
    ++ cls.methods.values.filterMap fun method =>
        (columns.methodKey? left method).map fun key =>
          ⟨.method owner key, columns.matchTarget? Method.names right.methods method.names⟩

theorem filterMap_entries (cls : Class m)
    : cls.entries.filterMap (columns.retarget? left right)
      = (cls.names.get columns.source).toList.flatMap fun owner =>
          columns.retargetsIn left right owner cls := by
  rw [Class.filterMap_entries fun _ _ _ => rfl]
  cases called : cls.names.get columns.source with
  | none => simp [retarget?, called]
  | some owner =>
      have on_class : columns.retarget? left right (.cls cls)
          = some ⟨.cls owner, columns.matchTarget? Class.names right.classes.values cls.names⟩ := by
        rw [retarget?, called]
        rfl
      have on_fields (field : Field m) : columns.retarget? left right (.field cls field)
          = (columns.fieldKey? left field).map fun key =>
            ⟨.field owner key, columns.matchTarget? Field.names right.fields field.names⟩ := by
        rw [retarget?, called]
        cases columns.fieldKey? left field <;> rfl
      have on_methods (method : Method m) : columns.retarget? left right (.method cls method)
          = (columns.methodKey? left method).map fun key =>
            ⟨.method owner key, columns.matchTarget? Method.names right.methods method.names⟩ := by
        rw [retarget?, called]
        cases columns.methodKey? left method <;> rfl
      simp only [on_class, on_fields, on_methods, Option.toList_some, List.flatMap_singleton]
      rfl

theorem owner_of_mem_retargetsIn {owner : ClassName} {cls : Class m} {retarget : Retarget}
    (member : retarget ∈ columns.retargetsIn left right owner cls)
    : retarget.path.owner = owner := by
  simp only [retargetsIn, List.cons_append, List.mem_cons, List.mem_append, List.mem_filterMap,
    Option.map_eq_some_iff] at member
  rcases member with rfl | ⟨_, _, _, _, rfl⟩ | ⟨_, _, _, _, rfl⟩ <;> rfl

theorem retargets_eq_flatMap
    : columns.retargets left right = left.classes.values.flatMap fun cls =>
        (cls.names.get columns.source).toList.flatMap fun owner =>
          columns.retargetsIn left right owner cls := by
  rw [retargets, Table.entries, List.filterMap_flatMap]
  simp only [filterMap_entries]

theorem filterMap_retargetsIn {β : Type} (told : Retarget → Option β) (owner : ClassName)
    (cls : Class m)
    : (columns.retargetsIn left right owner cls).filterMap told
      = (told ⟨.cls owner,
            columns.matchTarget? Class.names right.classes.values cls.names⟩).toList
        ++ (cls.fields.values.filterMap fun field =>
            (columns.fieldKey? left field).bind fun key =>
              told ⟨.field owner key, columns.matchTarget? Field.names right.fields field.names⟩)
        ++ cls.methods.values.filterMap fun method =>
            (columns.methodKey? left method).bind fun key =>
              told ⟨.method owner key,
                columns.matchTarget? Method.names right.methods method.names⟩ := by
  rw [retargetsIn, List.filterMap_append, List.filterMap_cons, List.filterMap_filterMap,
    List.filterMap_filterMap]
  simp only [Option.bind_map, Function.comp_def]
  cases told ⟨.cls owner, columns.matchTarget? Class.names right.classes.values cls.names⟩ <;> rfl

/-- Whatever concerns a class comes from those of the left table that are called like it. -/
theorem filterMap_retargets {β : Type} {told : Retarget → Option β} {owner : ClassName}
    (apart : ∀ retarget, retarget.path.owner ≠ owner → told retarget = none)
    : (columns.retargets left right).filterMap told
      = (columns.classesCalled left owner).flatMap fun cls =>
          (columns.retargetsIn left right owner cls).filterMap told := by
  rw [retargets_eq_flatMap]
  apply filterMap_flatMap_keyed
  intro other different cls retarget member
  apply apart
  rw [columns.owner_of_mem_retargetsIn left right member]
  exact different

theorem fieldKeys_retargets (owner : ClassName)
    : (columns.retargets left right).filterMap (fun retarget => retarget.path.fieldKey? owner)
      = (columns.fieldsCalled left owner).filterMap (columns.fieldKey? left) := by
  rw [filterMap_retargets, fieldsCalled, List.filterMap_flatMap]
  · congr 1
    funext cls
    rw [filterMap_retargetsIn]
    simp [Path.fieldKey?]
  · intro retarget other
    rcases retarget with ⟨path, _⟩
    cases path <;> simp_all [Path.fieldKey?, Path.owner]

theorem methodKeys_retargets (owner : ClassName)
    : (columns.retargets left right).filterMap (fun retarget => retarget.path.methodKey? owner)
      = (columns.methodsCalled left owner).filterMap (columns.methodKey? left) := by
  rw [filterMap_retargets, methodsCalled, List.filterMap_flatMap]
  · congr 1
    funext cls
    rw [filterMap_retargetsIn]
    simp [Path.methodKey?]
  · intro retarget other
    rcases retarget with ⟨path, _⟩
    cases path <;> simp_all [Path.methodKey?, Path.owner]

theorem targetAt?_of_owner_ne (path : Path) (retarget : Retarget)
    (other : retarget.path.owner ≠ path.owner)
    : retarget.targetAt? path = none :=
  Retarget.targetAt?_of_ne fun same => other (congrArg Path.owner same)

theorem lastTarget?_cls (owner : ClassName)
    : lastTarget? (columns.retargets left right) (.cls owner)
      = ((columns.classesCalled left owner).filterMap fun cls =>
          columns.matchTarget? Class.names right.classes.values cls.names).getLast? := by
  rw [lastTarget?, filterMap_retargets, List.filterMap_eq_flatMap_toList]
  · congr 2
    funext cls
    rw [filterMap_retargetsIn]
    simp [Retarget.targetAt?_self, Retarget.targetAt?_of_ne]
  · exact targetAt?_of_owner_ne (.cls owner)

theorem lastTarget?_field (owner : ClassName) (key : FieldKey)
    : lastTarget? (columns.retargets left right) (.field owner key)
      = (((columns.fieldsCalled left owner).filter fun field =>
            columns.fieldKey? left field = some key).filterMap
          fun field => columns.matchTarget? Field.names right.fields field.names).getLast? := by
  rw [lastTarget?, filterMap_retargets, fieldsCalled, List.filter_flatMap, List.filterMap_flatMap]
  · congr 2
    funext cls
    have at_key (field : Field m) := Retarget.bind_targetAt?
      (fun _ _ same => ((Path.field.injEq ..).mp same).2 : Function.Injective (Path.field owner))
      (fun _ => columns.matchTarget? Field.names right.fields field.names)
      (columns.fieldKey? left field) key
    rw [filterMap_retargetsIn]
    simp [at_key, Retarget.targetAt?_of_ne, List.filterMap_filter]
  · exact targetAt?_of_owner_ne (.field owner key)

theorem lastTarget?_method (owner : ClassName) (key : MethodKey)
    : lastTarget? (columns.retargets left right) (.method owner key)
      = (((columns.methodsCalled left owner).filter fun method =>
            columns.methodKey? left method = some key).filterMap
          fun method => columns.matchTarget? Method.names right.methods method.names).getLast? := by
  rw [lastTarget?, filterMap_retargets, methodsCalled, List.filter_flatMap, List.filterMap_flatMap]
  · congr 2
    funext cls
    have at_key (method : Method m) := Retarget.bind_targetAt?
      (fun _ _ same => ((Path.method.injEq ..).mp same).2 : Function.Injective (Path.method owner))
      (fun _ => columns.matchTarget? Method.names right.methods method.names)
      (columns.methodKey? left method) key
    rw [filterMap_retargetsIn]
    simp [at_key, Retarget.targetAt?_of_ne, List.filterMap_filter]
  · exact targetAt?_of_owner_ne (.method owner key)

theorem kind_ne_parameter_of_mem_retargets {retarget : Retarget}
    (member : retarget ∈ columns.retargets left right)
    : retarget.path.kind ≠ .parameter := by
  rw [retargets_eq_flatMap] at member
  obtain ⟨cls, _, member⟩ := List.mem_flatMap.mp member
  obtain ⟨owner, _, member⟩ := List.mem_flatMap.mp member
  simp only [retargetsIn, List.cons_append, List.mem_cons, List.mem_append, List.mem_filterMap,
    Option.map_eq_some_iff] at member
  rcases member with rfl | ⟨_, _, _, _, rfl⟩ | ⟨_, _, _, _, rfl⟩ <;> simp

/-- The members of a class add no classes, so the classes stand in the order of the left table. -/
theorem owners_retargets
    : ((columns.retargets left right).map fun retarget => retarget.path.owner).eraseDups
      = (left.classes.values.filterMap fun cls => cls.names.get columns.source).eraseDups := by
  rw [retargets_eq_flatMap]
  apply eraseDups_flatMap_keyed
  · exact fun _ _ => List.cons_ne_nil _ _
  · exact fun _ _ _ => columns.owner_of_mem_retargetsIn left right

end JoinColumns

/-- A join that succeeds has exactly the entries of the left table under their source keys, each
key with the target name of the last match that has one.
-/
theorem Table.join_eq_joined {left : Table m} {right : Table n} {labels : JoinLabels}
    {result : Table 2} (coherent : left.Coherent) (succeeds : left.join right labels = .ok result)
    : ∃ columns : JoinColumns m n, columns.Labelled left right labels
        ∧ result = columns.joined left right ⟨#v[labels.source, labels.target]⟩ := by
  obtain ⟨columns, labelled, rfl⟩ := join_eq_retargeted coherent succeeds
  refine ⟨columns, labelled, ?_⟩
  have class_eq : retargetedClass (columns.retargets left right)
      = columns.joinedClass left right := by
    funext owner
    have field_eq : retargetedField (columns.retargets left right) owner
        = columns.joinedField left right owner := by
      funext key
      rw [retargetedField, columns.lastTarget?_field left right, JoinColumns.joinedField]
    have method_eq : retargetedMethod (columns.retargets left right) owner
        = columns.joinedMethod left right owner := by
      funext key
      rw [retargetedMethod, columns.lastTarget?_method left right, JoinColumns.joinedMethod]
    rw [retargetedClass, columns.lastTarget?_cls, columns.fieldKeys_retargets,
      columns.methodKeys_retargets, field_eq, method_eq, JoinColumns.joinedClass]
  rw [retargeted_eq _ _ fun _ => columns.kind_ne_parameter_of_mem_retargets left right, class_eq,
    JoinColumns.joined]
  congr 1
  exact OrderedMap.ofKeys_congr (columns.owners_retargets left right) _

/-- Two classes with one source name, and in each a method that moves to the same key. -/
def Table.sharedSource : Table 3 :=
  (Table.empty ⟨#v["client", "official", "intermediary"]⟩).declareAll
    [⟨.cls ⟨"u"⟩, ⟨#v[some ⟨"u"⟩, some ⟨"a"⟩, some ⟨"I1"⟩]⟩⟩,
      ⟨.field ⟨"u"⟩ ⟨⟨"f"⟩, some ⟨"[Lu;"⟩⟩, ⟨#v[some ⟨"f"⟩, some ⟨"g"⟩, none]⟩⟩,
      ⟨.method ⟨"u"⟩ ⟨⟨"m"⟩, ⟨"(Lu;Lq;)Lv;"⟩⟩, ⟨#v[some ⟨"m"⟩, some ⟨"h"⟩, some ⟨"M1"⟩]⟩⟩,
      ⟨.cls ⟨"y"⟩, ⟨#v[some ⟨"y"⟩, some ⟨"a"⟩, some ⟨"I9"⟩]⟩⟩,
      ⟨.method ⟨"y"⟩ ⟨⟨"n"⟩, ⟨"(Ly;Lq;)Lv;"⟩⟩, ⟨#v[some ⟨"n"⟩, some ⟨"h"⟩, some ⟨"M9"⟩]⟩⟩,
      ⟨.cls ⟨"v"⟩, ⟨#v[some ⟨"v"⟩, some ⟨"b"⟩, none]⟩⟩]

/-- Matches the first one of them and its method only. -/
def Table.matchingFirst : Table 2 :=
  (Table.empty ⟨#v["intermediary", "named"]⟩).declareAll
    [⟨.cls ⟨"I1"⟩, .pair (some ⟨"I1"⟩) (some ⟨"World"⟩)⟩,
      ⟨.method ⟨"I1"⟩ ⟨⟨"M1"⟩, ⟨"(LI1;Lq;)LI2;"⟩⟩, .pair (some ⟨"M1"⟩) (some ⟨"tick"⟩)⟩]

/-- The entries without a match leave the names from the other ones, and in the descriptors the
classes of the left table have their source names.
-/
theorem Table.join_sharedSource
    : sharedSource.Coherent
      ∧ ∃ result,
          sharedSource.join matchingFirst ⟨"official", "intermediary", "named", "intermediary"⟩
            = .ok result
          ∧ result.classes.keys = [⟨"a"⟩, ⟨"b"⟩]
          ∧ result.names? (.cls ⟨"a"⟩) = some (.pair (some ⟨"a"⟩) (some ⟨"World"⟩))
          ∧ result.names? (.field ⟨"a"⟩ ⟨⟨"g"⟩, some ⟨"[La;"⟩⟩) = some (.pair (some ⟨"g"⟩) none)
          ∧ result.names? (.method ⟨"a"⟩ ⟨⟨"h"⟩, ⟨"(La;Lq;)Lb;"⟩⟩)
            = some (.pair (some ⟨"h"⟩) (some ⟨"tick"⟩))
          ∧ ∃ columns : JoinColumns 3 2,
              columns.Labelled sharedSource matchingFirst
                ⟨"official", "intermediary", "named", "intermediary"⟩
              ∧ result = columns.joined sharedSource matchingFirst ⟨#v["official", "named"]⟩ := by
  have coherent : sharedSource.Coherent := by
    apply declareAll_coherent _ (by decide)
    simp [Path.Fits, Names.first?]
  have joins : sharedSource.join matchingFirst
      ⟨"official", "intermediary", "named", "intermediary"⟩
      = .ok ((Table.empty ⟨#v["official", "named"]⟩).declareAll
          [⟨.cls ⟨"a"⟩, .pair (some ⟨"a"⟩) (some ⟨"World"⟩)⟩,
            ⟨.field ⟨"a"⟩ ⟨⟨"g"⟩, some ⟨"[La;"⟩⟩, .pair (some ⟨"g"⟩) none⟩,
            ⟨.method ⟨"a"⟩ ⟨⟨"h"⟩, ⟨"(La;Lq;)Lb;"⟩⟩, .pair (some ⟨"h"⟩) (some ⟨"tick"⟩)⟩,
            ⟨.cls ⟨"b"⟩, .pair (some ⟨"b"⟩) none⟩]) := by
    decide +kernel
  exact ⟨coherent, _, joins, rfl, rfl, rfl, rfl, join_eq_joined coherent joins⟩

end NameTables
