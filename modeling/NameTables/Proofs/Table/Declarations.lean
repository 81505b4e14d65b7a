import NameTables.Proofs.Table.Coherence

/-! What a list of declarations makes.
When owners are declared too, the names at the end of a path are those of its last declaration, and
a path without a declaration leads nowhere.
-/

namespace NameTables

variable {n : Nat}

namespace Declaration

/-- A declaration replaces all names at the end of its path. -/
def edit (declaration : Declaration n) : Edit n :=
  ⟨declaration.path, fun _ => declaration.names⟩

/-- The names that are declared for `path`, if it is the path of the declaration. -/
def namesAt? (declaration : Declaration n) (path : Path) : Option (Names n path.kind) :=
  if same : declaration.path = path then some (same ▸ declaration.names) else none

theorem namesAt?_eq_some_iff {declaration : Declaration n} {path : Path}
    {names : Names n path.kind}
    : declaration.namesAt? path = some names ↔ declaration = ⟨path, names⟩ := by
  obtain ⟨declared, declared_names⟩ := declaration
  by_cases same : declared = path
  · subst same
    simp [namesAt?]
  · simp [namesAt?, same]

theorem namesAt?_self (path : Path) (names : Names n path.kind)
    : (Declaration.mk path names).namesAt? path = some names :=
  namesAt?_eq_some_iff.mpr rfl

theorem namesAt?_of_ne {declaration : Declaration n} {path : Path}
    (other : declaration.path ≠ path)
    : declaration.namesAt? path = none :=
  dif_neg other

theorem edit_at (declaration : Declaration n) (path : Path) (names : Names n path.kind)
    : declaration.edit.at path names = (declaration.namesAt? path).getD names := by
  obtain ⟨declared, declared_names⟩ := declaration
  by_cases same : declared = path
  · subst same
    simp [Edit.at, edit, namesAt?]
  · simp [Edit.at, edit, namesAt?, same]

end Declaration

/-- The names of the last declaration of a path. -/
def lastDeclared? (declarations : List (Declaration n)) (path : Path)
    : Option (Names n path.kind) :=
  (declarations.filterMap fun declaration => declaration.namesAt? path).getLast?

/-- Whatever a path leads through is declared as well. -/
def OwnersDeclared (declarations : List (Declaration n)) : Prop :=
  ∀ declaration ∈ declarations, ∀ owner ∈ declaration.path.above,
    owner ∈ declarations.map Declaration.path

/-- A later declaration decides, if there is one. -/
theorem lastDeclared?_cons (declaration : Declaration n) (rest : List (Declaration n))
    (path : Path)
    : lastDeclared? (declaration :: rest) path
      = (lastDeclared? rest path).or (declaration.namesAt? path) := by
  rw [lastDeclared?, lastDeclared?, List.filterMap_cons]
  cases declaration.namesAt? path with
  | none => rw [Option.or_none]
  | some names =>
      rw [List.getLast?_cons]
      cases (rest.filterMap fun declaration => declaration.namesAt? path).getLast? <;> rfl

theorem mem_of_lastDeclared? {declarations : List (Declaration n)} {path : Path}
    {names : Names n path.kind} (last : lastDeclared? declarations path = some names)
    : ⟨path, names⟩ ∈ declarations := by
  obtain ⟨declaration, member, at_path⟩ := List.mem_filterMap.mp (List.mem_of_getLast? last)
  obtain rfl := Declaration.namesAt?_eq_some_iff.mp at_path
  exact member

theorem lastDeclared?_eq_none_iff {declarations : List (Declaration n)} {path : Path}
    : lastDeclared? declarations path = none ↔ path ∉ declarations.map Declaration.path := by
  have undeclared (declaration : Declaration n)
      : declaration.namesAt? path = none ↔ declaration.path ≠ path := by
    simp [Declaration.namesAt?]
  simp only [lastDeclared?, List.getLast?_eq_none_iff, List.filterMap_eq_nil_iff, undeclared,
    List.mem_map, not_exists, not_and]

/-- Without repeated paths, the last declaration is the only one, by list induction. -/
theorem lastDeclared?_eq_some_iff {declarations : List (Declaration n)}
    (nodup : (declarations.map Declaration.path).Nodup) {path : Path}
    {names : Names n path.kind}
    : lastDeclared? declarations path = some names ↔ ⟨path, names⟩ ∈ declarations := by
  induction declarations with
  | nil => simp [lastDeclared?]
  | cons declaration rest ih =>
      rw [List.map_cons, List.nodup_cons] at nodup
      rw [lastDeclared?_cons, Option.or_eq_some_iff, ih nodup.2,
        Declaration.namesAt?_eq_some_iff, List.mem_cons]
      constructor
      · intro either
        rcases either with later | ⟨_, first⟩
        · exact Or.inr later
        · exact Or.inl first.symm
      · intro either
        rcases either with first | later
        · refine Or.inr ⟨?_, first.symm⟩
          rw [Option.eq_none_iff_forall_ne_some]
          intro other declared
          subst first
          exact nodup.1 (List.mem_map.mpr ⟨_, mem_of_lastDeclared? declared, rfl⟩)
        · exact Or.inl later

namespace Table

/-- A table made of declarations is one made by a run of edits. -/
theorem declareAll_eq_applyAll (table : Table n) (declarations : List (Declaration n))
    : table.declareAll declarations
      = table.applyAll (declarations.map Declaration.edit) := by
  rw [declareAll, applyAll, List.foldl_map]
  rfl

theorem foldl_edit_at (declarations : List (Declaration n)) (path : Path)
    (names : Names n path.kind)
    : (declarations.map Declaration.edit).foldl (fun names edit => edit.at path names) names
      = (lastDeclared? declarations path).getD names := by
  induction declarations generalizing names with
  | nil => rfl
  | cons declaration rest ih =>
      rw [List.map_cons, List.foldl_cons, ih, Declaration.edit_at, lastDeclared?_cons]
      cases lastDeclared? rest path <;> simp

theorem names?_empty (labels : Labels n) (path : Path)
    : (Table.empty labels).names? path = none := by
  cases path <;> rfl

/-- A path that a declaration leads to or through has the names that were declared last for it, or
else those in its key.
-/
theorem names?_declareAll_eq_ite (labels : Labels n) (declarations : List (Declaration n))
    (path : Path)
    : ((Table.empty labels).declareAll declarations).names? path
      = if ∃ declaration ∈ declarations, declaration.path.Reaches path then
          some ((lastDeclared? declarations path).getD (freshNames path))
        else none := by
  have reached : (∃ edit ∈ declarations.map Declaration.edit, edit.path.Reaches path)
      ↔ ∃ declaration ∈ declarations, declaration.path.Reaches path :=
    exists_reaches_map
  rw [declareAll_eq_applyAll, names?_applyAll, names?_empty, Option.getD_none, foldl_edit_at]
  simp only [reached]

/-- The names at the end of a path are those that were declared last. -/
theorem names?_declareAll (labels : Labels n) {declarations : List (Declaration n)}
    (closed : OwnersDeclared declarations) (path : Path)
    : ((Table.empty labels).declareAll declarations).names? path
      = lastDeclared? declarations path := by
  rw [names?_declareAll_eq_ite]
  cases last : lastDeclared? declarations path with
  | some names =>
      rw [if_pos ⟨_, mem_of_lastDeclared? last, Path.reaches_self path⟩]
      rfl
  | none =>
      have undeclared := lastDeclared?_eq_none_iff.mp last
      rw [if_neg]
      intro given
      rcases given with ⟨declaration, member, rfl | above⟩
      · exact undeclared (List.mem_map.mpr ⟨declaration, member, rfl⟩)
      · exact undeclared (closed declaration member path above)

/-- Declarations that fit their paths make a coherent table. -/
theorem declareAll_coherent (labels : Labels n) (positive : 0 < n)
    {declarations : List (Declaration n)}
    (fit : ∀ declaration ∈ declarations, declaration.path.Fits declaration.names)
    : ((Table.empty labels).declareAll declarations).Coherent := by
  rw [declareAll_eq_applyAll]
  apply (empty_coherent labels).applyAll positive
  intro edit edited
  obtain ⟨declaration, member, rfl⟩ := List.mem_map.mp edited
  exact fun _ _ => fit declaration member

theorem labels_declareAll (labels : Labels n) (declarations : List (Declaration n))
    : ((Table.empty labels).declareAll declarations).labels = labels := by
  rw [declareAll_eq_applyAll, labels_applyAll]
  rfl

end Table

end NameTables
