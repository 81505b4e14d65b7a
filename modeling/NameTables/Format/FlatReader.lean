import NameTables.Format.Record
import NameTables.Table.Path

/-! Reading the flat format.
Empty lines are skipped. After the header, every line declares a class or a member, and the line of
a member makes its class if there is none yet.
-/

namespace NameTables.Flat

variable {n : Nat}

/-- The labels in the header. -/
def headerLabels (n : Nat) (record : Record) : Outcome (Labels n) :=
  if record.tag = "v1" then record.labels n else record.fail (.flatHeader record)

/-- What a record declares. -/
def declaration (n : Nat) (record : Record) : Outcome (Declaration n) :=
  if record.depth ≠ 0 then record.fail .indented
  else if record.tag = "CLASS" then do
    let (name, names) ← record.keyedNames n .cls
    return ⟨.cls name, names⟩
  else if record.tag = "FIELD" then do
    let (owner, record) ← record.take
    let (descriptor, record) ← record.takeFieldDescriptor
    let (name, names) ← record.keyedNames n .field
    return ⟨.field ⟨owner⟩ ⟨name, descriptor⟩, names⟩
  else if record.tag = "METHOD" then do
    let (owner, record) ← record.take
    let (descriptor, record) ← record.takeMethodDescriptor
    let (name, names) ← record.keyedNames n .method
    return ⟨.method ⟨owner⟩ ⟨name, descriptor⟩, names⟩
  else record.fail (.unknownTag record.tag)

def step (table : Table n) (line : Text.Line) : Outcome (Table n) := do
  return table.declare (← declaration n (← line.record))

/-- The table that the lines of a file hold. -/
def read (n : Nat) (lines : List Text.Line) : Outcome (Table n) :=
  if n < 2 then .error (.malformed 0 (.tooFewNamespaces n))
  else
    match lines.filter (·.text ≠ some "") with
    | [] => .error (.malformed 1 .noHeader)
    | first :: rest => do
        let labels ← headerLabels n (← first.record)
        rest.foldlM step (Table.empty labels)

end NameTables.Flat
