import NameTables.Proofs.Table.Declarations

/-! What a run of requests leaves in a table.
A request makes what is missing on its path, and may set one name of the entry at the end. Each
entry then has the names that were set last, and its own name in the first namespace, where no name
can be set.
-/

namespace NameTables

variable {n : Nat}

/-- A path to an entry, and a namespace with the name to set there, if one is to be set. -/
structure Request (n : Nat) where
  path : Path
  setting : Option (Fin n × Option (Name path.kind))

namespace Request

/-- What a request is for the entry at the end of its path. -/
def edit (request : Request n) : Edit n :=
  ⟨request.path, fun names =>
    match request.setting with
    | some (i, name) => if i.val = 0 then names else names.set i name
    | none => names⟩

/-- The name that is to be set in a namespace of the entry at the end of `path`. -/
def nameAt? (request : Request n) (path : Path) (i : Fin n) : Option (Option (Name path.kind)) :=
  if same : request.path = path then
    request.setting.bind fun (j, name) => if j = i then some (same ▸ name) else none
  else none

theorem nameAt?_self (path : Path) (setting : Option (Fin n × Option (Name path.kind))) (i : Fin n)
    : (Request.mk path setting).nameAt? path i
      = setting.bind fun (j, name) => if j = i then some name else none := by
  simp [nameAt?]

theorem nameAt?_of_ne {request : Request n} {path : Path} (other : request.path ≠ path)
    (i : Fin n)
    : request.nameAt? path i = none :=
  dif_neg other

/-- The name that `requests` leave to an entry. In the first namespace it is the one in the key. In
the others it is the last one that was to be set, and absent if none was.
-/
def leftName (requests : List (Request n)) (path : Path) (i : Fin n) : Option (Name path.kind) :=
  if i.val = 0 then path.own? else (requests.filterMap (·.nameAt? path i)).getLast?.join

/-- An entry that no request asks for keeps the names that it is made with. -/
theorem leftName_of_unasked {requests : List (Request n)} {path : Path}
    (unasked : ∀ request ∈ requests, request.path ≠ path) (i : Fin n)
    : leftName requests path i = if i.val = 0 then path.own? else none := by
  have none_asked : requests.filterMap (·.nameAt? path i) = [] :=
    List.filterMap_eq_nil_iff.mpr fun request asked => nameAt?_of_ne (unasked request asked) i
  rw [leftName, none_asked]
  rfl

end Request

namespace Table

/-- What is left of a table after a request, whether the name could be set or not. -/
def perform (table : Table n) (request : Request n) : Table n :=
  match request.setting with
  | some (i, name) => (table.rename request.path i name).1
  | none => table.ensure request.path

def performAll (table : Table n) (requests : List (Request n)) : Table n :=
  requests.foldl perform table

end Table

-----------------------------------------------------------------------------------------
-- Requests are edits
-----------------------------------------------------------------------------------------

namespace OrderedMap

variable {κ α : Type} [DecidableEq κ]

/-- Changes that agree on the entry under a key leave the same entries, by list induction. -/
theorem upsertEntry_congr {key : κ} {fresh : α} {change change' : α → α} {entries : List (κ × α)}
    (same
      : change ((lookup? entries key).getD fresh) = change' ((lookup? entries key).getD fresh))
    : upsertEntry key fresh change entries = upsertEntry key fresh change' entries := by
  induction entries with
  | nil => exact congrArg (fun a => [(key, a)]) same
  | cons entry rest ih =>
      rw [lookup?] at same
      rw [upsertEntry, upsertEntry]
      by_cases here : entry.1 = key
      · rw [if_pos here] at same
        rw [if_pos here, if_pos here]
        exact congrArg (fun a => (entry.1, a) :: rest) same
      · rw [if_neg here] at same
        rw [if_neg here, if_neg here, ih same]

theorem upsert_congr {m : OrderedMap κ α} {key : κ} {fresh : α} {change change' : α → α}
    (same : change ((m.get? key).getD fresh) = change' ((m.get? key).getD fresh))
    : m.upsert key fresh change = m.upsert key fresh change' :=
  ext (upsertEntry_congr same)

end OrderedMap

namespace Table

theorem updateClass_congr {table : Table n} {owner : ClassName} {change change' : Class n → Class n}
    (same
      : change ((table.class? owner).getD (.keyed owner))
        = change' ((table.class? owner).getD (.keyed owner)))
    : table.updateClass owner change = table.updateClass owner change' :=
  congrArg (Table.mk table.labels) (OrderedMap.upsert_congr same)

theorem updateField_congr {table : Table n} {owner : ClassName} {key : FieldKey}
    {change change' : Field n → Field n}
    (same
      : change ((table.field? owner key).getD (.keyed key))
        = change' ((table.field? owner key).getD (.keyed key)))
    : table.updateField owner key change = table.updateField owner key change' := by
  rw [field?_eq] at same
  apply updateClass_congr
  exact congrArg (fun fields => { (table.class? owner).getD (.keyed owner) with fields })
    (OrderedMap.upsert_congr same)

theorem updateMethod_congr {table : Table n} {owner : ClassName} {key : MethodKey}
    {change change' : Method n → Method n}
    (same
      : change ((table.method? owner key).getD (.keyed key))
        = change' ((table.method? owner key).getD (.keyed key)))
    : table.updateMethod owner key change = table.updateMethod owner key change' := by
  rw [method?_eq] at same
  apply updateClass_congr
  exact congrArg (fun methods => { (table.class? owner).getD (.keyed owner) with methods })
    (OrderedMap.upsert_congr same)

theorem updateParameter_congr {table : Table n} {owner : ClassName} {key : MethodKey}
    {index : UInt64} {change change' : Parameter n → Parameter n}
    (same
      : change ((table.parameter? owner key index).getD (.keyed index))
        = change' ((table.parameter? owner key index).getD (.keyed index)))
    : table.updateParameter owner key index change
      = table.updateParameter owner key index change' := by
  rw [parameter?_eq] at same
  apply updateMethod_congr
  exact congrArg (fun parameters => { (table.method? owner key).getD (.keyed key) with parameters })
    (OrderedMap.upsert_congr same)

/-- Only what becomes of the names that are there matters. -/
theorem update_congr {table : Table n} {path : Path}
    {change change' : Names n path.kind → Names n path.kind}
    (same
      : change ((table.names? path).getD (freshNames path))
        = change' ((table.names? path).getD (freshNames path)))
    : table.update path change = table.update path change' := by
  cases path with
  | cls owner =>
      apply updateClass_congr
      rw [names?_cls] at same
      cases found : table.class? owner <;> simp_all [freshNames, Class.keyed]
  | field owner key =>
      apply updateField_congr
      rw [names?_field] at same
      cases found : table.field? owner key <;> simp_all [freshNames, Field.keyed]
  | method owner key =>
      apply updateMethod_congr
      rw [names?_method] at same
      cases found : table.method? owner key <;> simp_all [freshNames, Method.keyed]
  | parameter owner key index =>
      apply updateParameter_congr
      rw [names?_parameter] at same
      cases found : table.parameter? owner key index <;> simp_all [freshNames, Parameter.keyed]

/-- A name that can be set is, and the path is made in any case. -/
theorem rename_eq (table : Table n) (path : Path) (i : Fin n) (name : Option (Name path.kind))
    : table.rename path i name
      = if i.val = 0 then (table.ensure path, .fail .firstNameFixed)
        else (table.update path fun names => names.set i name,
          .ok (((table.names? path).getD (freshNames path)).get i)) := by
  by_cases first : i.val = 0
  · simp [rename, Names.rename, first, Outcome.fail]
  · simp only [rename, Names.rename, first, if_false]
    exact congrArg (·, _) (update_congr rfl)

theorem perform_eq_update (table : Table n) (request : Request n)
    : table.perform request = table.update request.edit.path request.edit.change := by
  obtain ⟨path, setting⟩ := request
  cases setting with
  | none => rfl
  | some setting =>
      obtain ⟨i, name⟩ := setting
      change (table.rename path i name).1 = _
      rw [rename_eq, Request.edit]
      by_cases first : i.val = 0
      · simp only [first, if_true]
        rfl
      · simp only [first, if_false]

/-- A run of requests is a run of edits, by list induction. -/
theorem performAll_eq_applyAll (table : Table n) (requests : List (Request n))
    : table.performAll requests = table.applyAll (requests.map Request.edit) := by
  induction requests generalizing table with
  | nil => rfl
  | cons request requests ih =>
      change (table.perform request).performAll requests = _
      rw [ih, perform_eq_update]
      rfl

end Table

-----------------------------------------------------------------------------------------
-- Names that are left
-----------------------------------------------------------------------------------------

namespace Request

theorem get_edit_at (request : Request n) (path : Path) (names : Names n path.kind) (i : Fin n)
    : (request.edit.at path names).get i
      = if i.val = 0 then names.get i else (request.nameAt? path i).getD (names.get i) := by
  obtain ⟨changed, setting⟩ := request
  by_cases same : changed = path
  · subst same
    rw [nameAt?_self, edit, Edit.at_self]
    cases setting with
    | none => simp
    | some setting =>
        obtain ⟨j, name⟩ := setting
        by_cases here : j = i
        · subst here
          by_cases first : j.val = 0 <;> simp [first]
        · by_cases fixed : j.val = 0 <;> simp [fixed, here, Names.get_set_of_ne names here]
  · have apart : (Request.mk changed setting).edit.path ≠ path := same
    rw [Edit.at_of_ne apart, nameAt?_of_ne same, Option.getD_none, ite_self]

/-- The last name that is to be set stays, by induction on the run. -/
theorem get_foldl_edit_at (requests : List (Request n)) (path : Path) (names : Names n path.kind)
    (i : Fin n)
    : ((requests.map edit).foldl (fun names edit => edit.at path names) names).get i
      = if i.val = 0 then names.get i
        else (requests.filterMap (·.nameAt? path i)).getLast?.getD (names.get i) := by
  induction requests generalizing names with
  | nil => simp
  | cons request requests ih =>
      rw [List.map_cons, List.foldl_cons, ih, get_edit_at, List.filterMap_cons]
      by_cases first : i.val = 0
      · simp only [first, if_true]
      · simp only [first, if_false]
        cases request.nameAt? path i with
        | none => rfl
        | some name => rw [List.getLast?_cons]; rfl

theorem get_freshNames (path : Path) (i : Fin n)
    : (Table.freshNames path : Names n path.kind).get i
      = if i.val = 0 then path.own? else none := by
  cases path <;> simp [Table.freshNames, Names.get, Names.keyed, Names.blank, Path.own?]

end Request

namespace Table

/-- (table.LeftBy requests) says that the table has what the requests lead to or through and nothing
else. Every owner has its entries in the order of their first use, each entry repeats its key, and
its names are those that the requests leave to it.
-/
structure LeftBy (table : Table n) (requests : List (Request n)) : Prop where
  entries
    : ∀ path, (table.names? path).isSome = true ↔ ∃ request ∈ requests, request.path.Reaches path
  classes : table.classes.keys = (requests.map fun request => request.path.owner).eraseDups
  fields
    : ∀ owner, (table.fieldsOf owner).keys
        = (requests.filterMap fun request => request.path.fieldKey? owner).eraseDups
  methods
    : ∀ owner, (table.methodsOf owner).keys
        = (requests.filterMap fun request => request.path.methodKey? owner).eraseDups
  parameters
    : ∀ owner key, (table.parametersOf owner key).keys
        = (requests.filterMap fun request => request.path.index? owner key).eraseDups
  described : table.Described
  names
    : ∀ {path : Path} {names : Names n path.kind}, table.names? path = some names
        → ∀ i, names.get i = Request.leftName requests path i

theorem Described.applyAll {table : Table n} (described : table.Described) (edits : List (Edit n))
    : (table.applyAll edits).Described := by
  induction edits generalizing table with
  | nil => exact described
  | cons edit edits ih => exact ih (described.update edit.path edit.change)

theorem names?_performAll (labels : Labels n) (requests : List (Request n)) (path : Path)
    : ((Table.empty labels).performAll requests).names? path
      = if ∃ request ∈ requests, request.path.Reaches path then
          some ((requests.map Request.edit).foldl (fun names edit => edit.at path names)
            (freshNames path))
        else none := by
  have reached : (∃ edit ∈ requests.map Request.edit, edit.path.Reaches path)
      ↔ ∃ request ∈ requests, request.path.Reaches path :=
    exists_reaches_map
  rw [performAll_eq_applyAll, names?_applyAll, names?_empty, Option.getD_none]
  simp only [reached]

theorem performAll_leftBy (labels : Labels n) (requests : List (Request n))
    : ((Table.empty labels).performAll requests).LeftBy requests where
  entries path := by
    rw [names?_performAll]
    by_cases reached : ∃ request ∈ requests, request.path.Reaches path
    · rw [if_pos reached]
      exact iff_of_true rfl reached
    · rw [if_neg reached]
      exact iff_of_false Bool.false_ne_true reached
  classes := by
    rw [performAll_eq_applyAll, classKeys_applyAll, List.map_map]
    rfl
  fields owner := by
    rw [performAll_eq_applyAll, fieldKeys_applyAll, List.filterMap_map]
    rfl
  methods owner := by
    rw [performAll_eq_applyAll, methodKeys_applyAll, List.filterMap_map]
    rfl
  parameters owner key := by
    rw [performAll_eq_applyAll, parameterIndices_applyAll, List.filterMap_map]
    rfl
  described := by
    rw [performAll_eq_applyAll]
    exact (empty_coherent labels).described.applyAll _
  names {path names} found i := by
    rw [names?_performAll] at found
    obtain ⟨_, same⟩ := Option.ite_none_right_eq_some.mp found
    obtain rfl := Option.some.inj same
    rw [Request.get_foldl_edit_at, Request.get_freshNames, Request.leftName]
    by_cases first : i.val = 0
    · simp only [first, if_true]
    · simp only [first, if_false]
      cases (requests.filterMap (·.nameAt? path i)).getLast? <;> rfl

/-- The entries that are there keep their names when a path is made. -/
theorem names?_ensure {table : Table n} {path other : Path} {names : Names n other.kind}
    (found : table.names? other = some names)
    : (table.ensure path).names? other = some names := by
  have kept : (Edit.mk (n := n) path id).at other names = names := by
    by_cases same : path = other
    · subst same
      rw [Edit.at_self]
      rfl
    · exact Edit.at_of_ne same names
  have step := names?_update table (Edit.mk path id) other
  rw [found, Option.getD_some, kept, ite_self] at step
  exact step

/-- A run of requests leaves an empty table with what these lead to, under the names that were set
last. Of the requests that can follow, those for a name in the first namespace fail and change no
name, and the other ones tell the name that was left before them.
-/
theorem performAll_leaves {labels : Labels n} {requests : List (Request n)} {table : Table n}
    (left : (Table.empty labels).performAll requests = table)
    : table.labels = labels
      ∧ table.LeftBy requests
      ∧ ∀ (path : Path) (i : Fin n) (name : Option (Name path.kind)),
          (i.val = 0 →
            (table.rename path i name).2 = .fail .firstNameFixed
            ∧ ∀ {other : Path} {names : Names n other.kind}, table.names? other = some names →
                (table.rename path i name).1.names? other = some names)
          ∧ (i.val ≠ 0 →
            (table.rename path i name).2 = .ok (Request.leftName requests path i)) := by
  subst left
  have leftBy := performAll_leftBy labels requests
  refine ⟨?_, leftBy, fun path i name => ⟨fun first => ?_, fun later => ?_⟩⟩
  · rw [performAll_eq_applyAll, labels_applyAll]
    rfl
  · rw [rename_eq, if_pos first]
    exact ⟨rfl, names?_ensure⟩
  · rw [rename_eq, if_neg later]
    refine congrArg Except.ok ?_
    cases found : ((Table.empty labels).performAll requests).names? path with
    | some names => exact leftBy.names found i
    | none =>
        have unasked : ∀ request ∈ requests, request.path ≠ path := by
          rintro request asked rfl
          have there := (leftBy.entries request.path).mpr ⟨_, asked, Path.reaches_self _⟩
          simp [found] at there
        rw [Option.getD_none, Request.get_freshNames, if_neg later,
          Request.leftName_of_unasked unasked, if_neg later]

/-- Names that are set twice, cleared, or to be set in the first namespace, and a class that is made
for a field before it is asked for.
-/
def overwriting : List (Request 3) :=
  [⟨.parameter ⟨"a"⟩ ⟨⟨"m"⟩, ⟨"(I)V"⟩⟩ 1, some (1, some ⟨"count"⟩)⟩,
    ⟨.cls ⟨"b"⟩, some (0, some ⟨"x"⟩)⟩,
    ⟨.parameter ⟨"a"⟩ ⟨⟨"m"⟩, ⟨"(I)V"⟩⟩ 1, some (2, some ⟨"size"⟩)⟩,
    ⟨.field ⟨"a"⟩ ⟨⟨"f"⟩, none⟩, none⟩,
    ⟨.parameter ⟨"a"⟩ ⟨⟨"m"⟩, ⟨"(I)V"⟩⟩ 1, some (2, some ⟨"length"⟩)⟩,
    ⟨.parameter ⟨"a"⟩ ⟨⟨"m"⟩, ⟨"(I)V"⟩⟩ 1, some (1, none)⟩,
    ⟨.cls ⟨"a"⟩, some (2, some ⟨"Outer"⟩)⟩]

/-- The table that they leave. -/
def overwritten : Table 3 :=
  (Table.empty ⟨#v["official", "srg", "named"]⟩).declareAll
    [⟨.cls ⟨"a"⟩, ⟨#v[some ⟨"a"⟩, none, some ⟨"Outer"⟩]⟩⟩,
      ⟨.cls ⟨"b"⟩, ⟨#v[some ⟨"b"⟩, none, none]⟩⟩,
      ⟨.field ⟨"a"⟩ ⟨⟨"f"⟩, none⟩, ⟨#v[some ⟨"f"⟩, none, none]⟩⟩,
      ⟨.method ⟨"a"⟩ ⟨⟨"m"⟩, ⟨"(I)V"⟩⟩, ⟨#v[some ⟨"m"⟩, none, none]⟩⟩,
      ⟨.parameter ⟨"a"⟩ ⟨⟨"m"⟩, ⟨"(I)V"⟩⟩ 1, ⟨#v[none, none, some ⟨"length"⟩]⟩⟩]

theorem performAll_leaves_overwriting
    : overwritten.LeftBy overwriting
      ∧ overwritten.classes.keys = [⟨"a"⟩, ⟨"b"⟩]
      ∧ (overwritten.rename (.parameter ⟨"a"⟩ ⟨⟨"m"⟩, ⟨"(I)V"⟩⟩ 1) 2 none).2
        = .ok (some ⟨"length"⟩)
      ∧ (overwritten.rename (.parameter ⟨"a"⟩ ⟨⟨"m"⟩, ⟨"(I)V"⟩⟩ 1) 1 none).2 = .ok none
      ∧ (overwritten.rename (.cls ⟨"b"⟩) 0 none).2 = .fail .firstNameFixed
      ∧ (overwritten.rename (.cls ⟨"b"⟩) 0 none).1.names? (.cls ⟨"a"⟩)
        = some ⟨#v[some ⟨"a"⟩, none, some ⟨"Outer"⟩]⟩ := by
  have left : (Table.empty ⟨#v["official", "srg", "named"]⟩).performAll overwriting
      = overwritten := by
    decide +kernel
  obtain ⟨_, leftBy, after⟩ := performAll_leaves left
  refine ⟨leftBy, leftBy.classes.trans (by decide +kernel), ?_, ?_, ?_, ?_⟩
  · exact ((after _ 2 none).2 (by decide)).trans (congrArg Except.ok (by decide +kernel))
  · exact ((after _ 1 none).2 (by decide)).trans (congrArg Except.ok (by decide +kernel))
  · exact ((after (.cls ⟨"b"⟩) 0 none).1 rfl).1
  · exact ((after (.cls ⟨"b"⟩) 0 none).1 rfl).2 rfl

end Table

end NameTables
