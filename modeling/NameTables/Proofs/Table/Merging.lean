import Mathlib.Data.List.Induction
import NameTables.Proofs.Table.OwnDeclarations

/-! Merging tables.
A table is merged into another one when its entries are declared there. Keys that are new stand
behind the old ones, in their order, and the names of the merged table replace those at the same
paths. What is declared matters only for the table that it makes alone.
-/

namespace NameTables

variable {n : Nat}

/-- Repetitions may be dropped from what is added, by induction from its end. -/
theorem OrderedMap.eraseDups_append_eraseDups {κ : Type} [DecidableEq κ] (keys more : List κ)
    : (keys ++ more.eraseDups).eraseDups = (keys ++ more).eraseDups := by
  induction more using List.reverseRecOn with
  | nil => rfl
  | append_singleton more key ih =>
      by_cases old : key ∈ more
      · have among_more : [key] ⊆ more := by simpa using old
        have among_both : [key] ⊆ keys ++ more := by simp [old]
        rw [eraseDups_append_of_subset among_more, ih, ← List.append_assoc,
          eraseDups_append_of_subset among_both]
      · have last : (more ++ [key]).eraseDups = more.eraseDups ++ [key] := by
          simp [List.eraseDups_append, List.removeAll, List.eraseDups_cons, old]
        rw [last, ← List.append_assoc, ← eraseDups_eraseDups_append, ih,
          eraseDups_eraseDups_append, List.append_assoc]

namespace Table

/-- The table with all entries of `other` declared in it: the classes in their order, each with its
fields and its methods, and each method with its parameters.
-/
def merge (table other : Table n) : Table n := table.declareAll other.declarations

theorem Described.declareAll {table : Table n} (described : table.Described)
    (declarations : List (Declaration n))
    : (table.declareAll declarations).Described := by
  induction declarations generalizing table with
  | nil => exact described
  | cons declaration rest ih => exact ih (described.update _ _)

-----------------------------------------------------------------------------------------
-- Declarations add what they make alone
-----------------------------------------------------------------------------------------

/-- Keys that edits add behind the others are those of the table that is made of them alone. -/
theorem keys_declareAll {κ : Type} [DecidableEq κ] (keysOf : Table n → List κ)
    (used : Path → Option κ)
    (run
      : ∀ (table : Table n) (edits : List (Edit n)),
          keysOf (table.applyAll edits)
            = (keysOf table ++ edits.filterMap fun edit => used edit.path).eraseDups)
    {labels : Labels n} (none_first : keysOf (Table.empty labels) = []) (table : Table n)
    (declarations : List (Declaration n))
    : keysOf (table.declareAll declarations)
      = (keysOf table ++ keysOf ((Table.empty labels).declareAll declarations)).eraseDups := by
  rw [declareAll_eq_applyAll, declareAll_eq_applyAll, run, run, none_first, List.nil_append,
    OrderedMap.eraseDups_append_eraseDups]

section Alone

variable (labels : Labels n) (table : Table n) (declarations : List (Declaration n))

theorem classKeys_declareAll
    : (table.declareAll declarations).classes.keys
      = (table.classes.keys
          ++ ((Table.empty labels).declareAll declarations).classes.keys).eraseDups := by
  apply keys_declareAll (fun table => table.classes.keys) (fun path => some path.owner) _ rfl
  intro table edits
  rw [List.filterMap_eq_map']
  exact classKeys_applyAll table edits

theorem fieldKeys_declareAll (owner : ClassName)
    : ((table.declareAll declarations).fieldsOf owner).keys
      = ((table.fieldsOf owner).keys
          ++ (((Table.empty labels).declareAll declarations).fieldsOf owner).keys).eraseDups :=
  keys_declareAll (fun table => (table.fieldsOf owner).keys) (Path.fieldKey? owner)
    (fun table edits => fieldKeys_applyAll table edits owner) rfl table declarations

theorem methodKeys_declareAll (owner : ClassName)
    : ((table.declareAll declarations).methodsOf owner).keys
      = ((table.methodsOf owner).keys
          ++ (((Table.empty labels).declareAll declarations).methodsOf owner).keys).eraseDups :=
  keys_declareAll (fun table => (table.methodsOf owner).keys) (Path.methodKey? owner)
    (fun table edits => methodKeys_applyAll table edits owner) rfl table declarations

theorem parameterIndices_declareAll (owner : ClassName) (key : MethodKey)
    : ((table.declareAll declarations).parametersOf owner key).keys
      = ((table.parametersOf owner key).keys
          ++ (((Table.empty labels).declareAll declarations).parametersOf owner key).keys
        ).eraseDups :=
  keys_declareAll (fun table => (table.parametersOf owner key).keys) (Path.index? owner key)
    (fun table edits => parameterIndices_applyAll table edits owner key) rfl table declarations

/-- Paths have the names of the table that is made alone, or else those that they had before. -/
theorem names?_declareAll_eq_or {declarations : List (Declaration n)}
    (closed : OwnersDeclared declarations) (path : Path)
    : (table.declareAll declarations).names? path
      = (((Table.empty labels).declareAll declarations).names? path).or (table.names? path) := by
  rw [names?_declareAll labels closed, declareAll_eq_applyAll, names?_applyAll, foldl_edit_at]
  cases last : lastDeclared? declarations path with
  | some names =>
      have declared := List.mem_map_of_mem (f := Declaration.edit) (mem_of_lastDeclared? last)
      rw [if_pos ⟨_, declared, path.reaches_self⟩, Option.getD_some, Option.some_or]
  | none =>
      have undeclared := lastDeclared?_eq_none_iff.mp last
      rw [if_neg, Option.none_or]
      intro given
      rcases given with ⟨edit, edited, reaches⟩
      obtain ⟨declaration, member, rfl⟩ := List.mem_map.mp edited
      rcases reaches with rfl | above
      · exact undeclared (List.mem_map_of_mem member)
      · exact undeclared (closed declaration member path above)

end Alone

/-- Declarations that make the same table alone make the same one of any table. -/
theorem declareAll_congr {labels : Labels n} {declarations declarations' : List (Declaration n)}
    (closed : OwnersDeclared declarations) (closed' : OwnersDeclared declarations')
    (same
      : (Table.empty labels).declareAll declarations
        = (Table.empty labels).declareAll declarations')
    {table : Table n} (described : table.Described)
    : table.declareAll declarations = table.declareAll declarations' := by
  apply (described.declareAll declarations).eq_of_sameKeys (described.declareAll declarations')
  · rw [declareAll_eq_applyAll, declareAll_eq_applyAll, labels_applyAll, labels_applyAll]
  · constructor
    · rw [classKeys_declareAll labels table, classKeys_declareAll labels table, same]
    · intro owner
      rw [fieldKeys_declareAll labels table, fieldKeys_declareAll labels table, same]
    · intro owner
      rw [methodKeys_declareAll labels table, methodKeys_declareAll labels table, same]
    · intro owner key
      rw [parameterIndices_declareAll labels table, parameterIndices_declareAll labels table, same]
  · intro path names names' found found'
    rw [names?_declareAll_eq_or labels table closed, same,
      ← names?_declareAll_eq_or labels table closed', found'] at found
    exact (Option.some.inj found).symm

/-- Declaring what a table is made of is merging the table. -/
theorem declareAll_eq_merge {labels : Labels n} {declarations : List (Declaration n)}
    (closed : OwnersDeclared declarations) (positive : 0 < n)
    (coherent : ((Table.empty labels).declareAll declarations).Coherent)
    {table : Table n} (described : table.Described)
    : table.declareAll declarations
      = table.merge ((Table.empty labels).declareAll declarations) := by
  have again := coherent.declareAll_declarations positive
  rw [labels_declareAll] at again
  exact declareAll_congr closed ownersDeclared_declarations again.symm described

end Table

end NameTables
