import NameTables.Table

/-! Lookup of entries by their name in one namespace.
Members are looked up in the whole table, whatever class they are in. Of several entries of a kind
with the same name, the last one is found.
-/

namespace NameTables

variable {n : Nat}

/-- The last item with a name. -/
def lastNamed? {α : Type} {kind : Kind} (names : α → Names n kind) (i : Fin n)
    (name : Name kind) (items : List α)
    : Option α :=
  items.reverse.find? fun item => (names item).get i = some name

/-- The entries of a table, to be looked up by their names in `column`. -/
structure Index (n : Nat) where
  table : Table n
  column : Fin n

namespace Index

def class? (index : Index n) (name : ClassName) : Option (Class n) :=
  lastNamed? Class.names index.column name index.table.classes.values

def field? (index : Index n) (name : FieldName) : Option (Field n) :=
  lastNamed? Field.names index.column name index.table.fields

def method? (index : Index n) (name : MethodName) : Option (Method n) :=
  lastNamed? Method.names index.column name index.table.methods

end Index

/-- New names for classes. Of several new names for a class, the last one counts. -/
structure ClassMap where
  pairs : List (ClassName × ClassName)

namespace ClassMap

def find? (classMap : ClassMap) (name : ClassName) : Option ClassName :=
  (classMap.pairs.reverse.find? fun pair => pair.1 = name).map Prod.snd

/-- A class without a new name keeps its own. -/
def apply (classMap : ClassMap) (name : ClassName) : ClassName :=
  (classMap.find? name).getD name

end ClassMap

/-- From the names in `source` to those in `target`, for the classes that have both. -/
def Table.classMap (table : Table n) (source target : Fin n) : ClassMap :=
  ⟨table.classes.values.filterMap fun cls => do
    return (← cls.names.get source, ← cls.names.get target)⟩

end NameTables
