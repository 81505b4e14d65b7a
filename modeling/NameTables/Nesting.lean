import NameTables.Table

/-! Nested classes.
A class is nested in the innermost enclosing class that the table has. The target name of an
enclosing class carries over to the classes nested in it that have none of their own.
-/

namespace NameTables

variable {n : Nat}

/-- The innermost enclosing class that the table has. -/
def Table.outer? (table : Table n) (name : ClassName) : Option ClassName :=
  name.enclosing.find? table.classes.contains

theorem Table.length_lt_of_outer? {table : Table n} {name outer : ClassName}
    (h : table.outer? name = some outer)
    : outer.text.toList.length < name.text.toList.length :=
  Name.length_lt_of_mem_enclosing (List.mem_of_find?_eq_some h)

def Table.target? (table : Table 2) (name : ClassName) : Option ClassName := do
  (← table.class? name).names.target

/-- The target name of a class, or else that of the class around it and what follows that class in
the name.
-/
def Table.fullTarget (table : Table 2) (name : ClassName) : ClassName :=
  match table.target? name with
  | some target => target
  | none =>
      match h : table.outer? name with
      | some outer =>
          have := length_lt_of_outer? h
          (table.fullTarget outer).nested
            (String.ofList (name.text.toList.drop (outer.text.toList.length + 1)))
      | none => name
termination_by name.text.toList.length

/-- The classes of a table, each with the class that it is nested in. -/
structure Nesting where
  classes : List (Option ClassName × Class 2)

namespace Nesting

def ofTable (table : Table 2) : Nesting :=
  ⟨table.classes.entries.map fun (name, cls) => (table.outer? name, cls)⟩

/-- The classes that are nested in `outer` directly, or in none. -/
def inside (nesting : Nesting) (outer : Option ClassName) : List (Class 2) :=
  nesting.classes.filterMap fun (around, cls) => if around = outer then some cls else none

/-- The classes directly inside a class, which are found by its first name. -/
def insideClass (nesting : Nesting) (cls : Class 2) : List (Class 2) :=
  match cls.names.source with
  | some name => nesting.inside (some name)
  | none => []

/-- The class is mapped, or a class nested in it at most `depth` levels below. -/
def isMappedWithin (nesting : Nesting) : Nat → Class 2 → Bool
  | 0, cls => cls.isMapped
  | depth + 1, cls =>
      cls.isMapped || (nesting.insideClass cls).any (nesting.isMappedWithin depth)

/-- The class is mapped, or a class nested in it. No class is nested deeper than there are
classes.
-/
def isMapped (nesting : Nesting) (cls : Class 2) : Bool :=
  nesting.isMappedWithin nesting.classes.length cls

end Nesting

end NameTables
