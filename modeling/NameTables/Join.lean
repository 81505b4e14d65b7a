import NameTables.Table.Rekey

/-! Joins of two tables through names that they share.
Every entry of the left table moves to its key in the source namespace. Its name in the probe column
is looked up among the names of the right table in the key column, and its target name is the name
that the match has in the target column. A migration keeps the name of an entry without a match.
Parameters are not joined.
-/

namespace NameTables

variable {m n : Nat}

/-- The target name of an entry that has no match. -/
inductive Unmatched
  | absent
  | keepName
  deriving DecidableEq

/-- The new target name of an entry, if there is one. The entry is called `own`, and a match may
have no name itself. An entry without a match never replaces a target name.
-/
def Unmatched.pick {kind : Kind} (unmatched : Unmatched) (own : Name kind)
    (found : Option (Option (Name kind))) (current : Option (Name kind))
    : Option (Name kind) :=
  match found, unmatched, current with
  | some name, _, _ => name
  | none, .keepName, none => some own
  | none, _, _ => none

/-- The labels of a join: `source` and `probe` of the left table, `target` and `key` of the right
one.
-/
structure JoinLabels where
  source : String
  probe : String
  target : String
  key : String

/-- A join whose namespaces are known. -/
structure Joining (m n : Nat) where
  rekey : Rekey m
  probe : Fin m
  target : Fin n
  index : Index n
  unmatched : Unmatched

namespace Joining

/-- Sets the target name of an entry called `own`, if there is a new one. -/
def assign (joining : Joining m n) {kind : Kind} (own : Name kind)
    (found : Option (Option (Name kind))) (names : Names 2 kind)
    : Names 2 kind :=
  match joining.unmatched.pick own found names.target with
  | some name => names.setTarget (some name)
  | none => names

/-- The name of the match in the target column, if there is a match. -/
def foundClass (joining : Joining m n) (cls : Class m) : Option (Option ClassName) := do
  return (← joining.index.class? (← cls.names.get joining.probe)).names.get joining.target

def foundField (joining : Joining m n) (field : Field m) : Option (Option FieldName) := do
  return (← joining.index.field? (← field.names.get joining.probe)).names.get joining.target

def foundMethod (joining : Joining m n) (method : Method m) : Option (Option MethodName) := do
  return (← joining.index.method? (← method.names.get joining.probe)).names.get joining.target

/-- What an entry of the left table changes in the joined table. -/
def edit (joining : Joining m n) : Entry m → Outcome (Option (Edit 2))
  | .cls cls => .ok do
      let name ← joining.rekey.classKey cls
      return ⟨.cls name, joining.assign name (joining.foundClass cls)⟩
  | .field owner field => do
      let key ← joining.rekey.fieldKey owner field
      return key.map fun (ownerName, key) =>
        ⟨.field ownerName key, joining.assign key.name (joining.foundField field)⟩
  | .method owner method => do
      let key ← joining.rekey.methodKey owner method
      return key.map fun (ownerName, key) =>
        ⟨.method ownerName key, joining.assign key.name (joining.foundMethod method)⟩
  | .parameter _ _ _ => .ok none

end Joining

namespace Table

/-- The namespaces are resolved before anything else is looked at. -/
def joinWith (left : Table m) (right : Table n) (labels : JoinLabels) (source target : String)
    (unmatched : Unmatched)
    : Outcome (Table 2) := do
  let sourceColumn ← left.labels.resolve labels.source
  let probe ← left.labels.resolve labels.probe
  let targetColumn ← right.labels.resolve labels.target
  let key ← right.labels.resolve labels.key
  let joining : Joining m n :=
    { rekey := .ofTable left sourceColumn
      probe
      target := targetColumn
      index := ⟨right, key⟩
      unmatched }
  let joined ← Labels.pair source target
  let edits ← left.entries.mapM joining.edit
  return (Table.empty joined).applyAll (edits.filterMap id)

/-- Maps the source names of `left` to the target names of `right`. -/
def join (left : Table m) (right : Table n) (labels : JoinLabels) : Outcome (Table 2) :=
  left.joinWith right labels labels.source labels.target .absent

/-- Both tables are matched by the namespace `matching`. -/
def joinShared (left : Table m) (right : Table n) (source target matching : String)
    : Outcome (Table 2) :=
  left.join right ⟨source, matching, target, matching⟩

/-- Maps the names of one version to those of another, under labels of its own. -/
def migrate (old : Table m) (new : Table n) (matching named source target : String)
    : Outcome (Table 2) :=
  old.joinWith new ⟨named, matching, named, matching⟩ source target .keepName

end Table

end NameTables
