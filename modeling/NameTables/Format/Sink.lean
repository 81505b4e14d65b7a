import NameTables.Format.FlatWriter
import NameTables.Format.NestedWriter

/-! Writing to a sink.
A sink takes what is appended to it, and keeps what it took when writing fails later on. So a table
is checked before anything is appended.
-/

namespace NameTables

/-- Appending to a sink, which can fail. -/
abbrev Appending (α : Type) := ExceptT Failure (StateM String) α

/-- How it ends, and what the sink holds then. -/
def Appending.onto {α : Type} (appending : Appending α) (sink : String) : Outcome α × String :=
  appending.run sink

/-- Appends a line. -/
def Row.emit (row : Row) : Appending Unit := modify fun sink => sink ++ row.render ++ "\n"

namespace Format

/-- The rows of a file with the table, the header first. -/
def rows (format : Format) (table : Table 2) (source target : String) (arrangement : Arrangement)
    : List Row :=
  match format with
  | .flat => Flat.headerRow source target :: Flat.body table arrangement
  | .nested => Nested.headerRow source target :: Nested.body table arrangement

/-- Appends the text of a file with the table, line by line. -/
def writeTo (format : Format) (table : Table 2) (source target : String)
    (arrangement : Arrangement)
    : Appending Unit := do
  match table.checkDescriptors with
  | .error failure => throw failure
  | .ok () => forM (format.rows table source target arrangement) Row.emit

end Format

end NameTables
