import NameTables.Table

/-! Paths to the entries of a table, and changing the names of an entry.
A change makes what is missing on its path, each entry behind the others of its owner. A
declaration is a path with all names of the entry, and a list of declarations makes a table.
-/

namespace NameTables

variable {n : Nat}

/-- The keys that lead to an entry. -/
inductive Path
  | cls (owner : ClassName)
  | field (owner : ClassName) (key : FieldKey)
  | method (owner : ClassName) (key : MethodKey)
  | parameter (owner : ClassName) (key : MethodKey) (index : UInt64)
  deriving DecidableEq

/-- What the entry at the end of a path is. -/
@[reducible]
def Path.kind : Path → Kind
  | .cls _ => .cls
  | .field _ _ => .field
  | .method _ _ => .method
  | .parameter _ _ _ => .parameter

namespace Table

def updateClass (table : Table n) (owner : ClassName) (change : Class n → Class n) : Table n :=
  { table with classes := table.classes.upsert owner (.keyed owner) change }

def updateField (table : Table n) (owner : ClassName) (key : FieldKey)
    (change : Field n → Field n)
    : Table n :=
  table.updateClass owner fun cls =>
    { cls with fields := cls.fields.upsert key (.keyed key) change }

def updateMethod (table : Table n) (owner : ClassName) (key : MethodKey)
    (change : Method n → Method n)
    : Table n :=
  table.updateClass owner fun cls =>
    { cls with methods := cls.methods.upsert key (.keyed key) change }

def updateParameter (table : Table n) (owner : ClassName) (key : MethodKey) (index : UInt64)
    (change : Parameter n → Parameter n)
    : Table n :=
  table.updateMethod owner key fun method =>
    { method with parameters := method.parameters.upsert index (.keyed index) change }

/-- Changes the names of the entry at the end of `path`, making the path first. -/
def update (table : Table n)
    : (path : Path) → (change : Names n path.kind → Names n path.kind) → Table n
  | .cls owner, change =>
      table.updateClass owner fun cls => { cls with names := change cls.names }
  | .field owner key, change =>
      table.updateField owner key fun field => { field with names := change field.names }
  | .method owner key, change =>
      table.updateMethod owner key fun method => { method with names := change method.names }
  | .parameter owner key index, change =>
      table.updateParameter owner key index fun parameter =>
        { parameter with names := change parameter.names }

/-- Makes the path, and changes no name. -/
def ensure (table : Table n) (path : Path) : Table n := table.update path id

/-- The names of the entry at the end of `path`. -/
def names? (table : Table n) : (path : Path) → Option (Names n path.kind)
  | .cls owner => (table.class? owner).map Class.names
  | .field owner key => (table.field? owner key).map Field.names
  | .method owner key => (table.method? owner key).map Method.names
  | .parameter owner key index => (table.parameter? owner key index).map Parameter.names

end Table

/-- A change of the names of the entry at the end of a path. -/
structure Edit (n : Nat) where
  path : Path
  change : Names n path.kind → Names n path.kind

/-- All names of the entry at the end of a path. -/
structure Declaration (n : Nat) where
  path : Path
  names : Names n path.kind

namespace Table

def applyAll (table : Table n) (edits : List (Edit n)) : Table n :=
  edits.foldl (fun table edit => table.update edit.path edit.change) table

/-- Later declarations of an entry replace its names. -/
def declare (table : Table n) (declaration : Declaration n) : Table n :=
  table.update declaration.path fun _ => declaration.names

def declareAll (table : Table n) (declarations : List (Declaration n)) : Table n :=
  declarations.foldl declare table

/-- The names that a path has when it is made. -/
def freshNames : (path : Path) → Names n path.kind
  | .cls owner => .keyed owner
  | .field _ key => .keyed key.name
  | .method _ key => .keyed key.name
  | .parameter _ _ _ => .blank

/-- Makes the path and sets one of its names, telling the previous one. The path stays when the
name cannot be set.
-/
def rename (table : Table n) (path : Path) (i : Fin n) (name : Option (Name path.kind))
    : Table n × Outcome (Option (Name path.kind)) :=
  let names := (table.names? path).getD (freshNames path)
  match names.rename i name with
  | .ok (previous, names) => (table.update path fun _ => names, .ok previous)
  | .error failure => (table.ensure path, .error failure)

end Table

end NameTables
