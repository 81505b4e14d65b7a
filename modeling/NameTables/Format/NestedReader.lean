import NameTables.Format.Record
import NameTables.Table.Path

/-! Reading the nested format.
A record belongs to the last record before it that is indented by one tab less, and it closes all
records that are indented as far as itself. A record deeper than one below the last open one has
no owner. A comment opens nothing, so nothing stands below it.
-/

namespace NameTables.Nested

variable {n : Nat}

/-- The labels in the header, after the version. -/
def headerLabels (n : Nat) (record : Record) : Outcome (Labels n) :=
  if record.tag = "tiny" then do
    let (major, afterMajor) ← record.take
    if major = "2" then
      let (minor, afterMinor) ← afterMajor.take
      if minor = "0" then afterMinor.labels n
      else afterMinor.fail (.nestedHeader afterMinor)
    else afterMajor.fail (.nestedHeader afterMajor)
  else record.fail (.nestedHeader record)

/-- Comments declare nothing, and no other tag is left. -/
def comment (record : Record) : Outcome (Option (Declaration n)) :=
  if record.tag = "c" then .ok none else record.fail (.unknownTag record.tag)

/-- What a record declares below `owner`. -/
def declaration (n : Nat) (owner : Option Path) (record : Record)
    : Outcome (Option (Declaration n)) :=
  match owner with
  | none =>
      if record.tag = "c" then do
        let (name, names) ← record.keyedNames n .cls
        return some ⟨.cls name, names⟩
      else record.fail (.unknownTag record.tag)
  | some (.cls owner) =>
      if record.tag = "f" then do
        let (descriptor, record) ← record.takeFieldDescriptor
        let (name, names) ← record.keyedNames n .field
        return some ⟨.field owner ⟨name, descriptor⟩, names⟩
      else if record.tag = "m" then do
        let (descriptor, record) ← record.takeMethodDescriptor
        let (name, names) ← record.keyedNames n .method
        return some ⟨.method owner ⟨name, descriptor⟩, names⟩
      else comment record
  | some (.method owner key) =>
      if record.tag = "p" then do
        let (text, record) ← record.take
        match parameterIndex text with
        | .error fault => record.fail (.parameterIndex text fault)
        | .ok index =>
            let names ← record.names n .parameter
            return some ⟨.parameter owner key index, names⟩
      else comment record
  | some (.field _ _) => comment record
  | some (.parameter _ _ _) => comment record

/-- A record that later ones may belong to. -/
structure Open where
  line : Nat
  path : Path
  deriving DecidableEq

/-- What the lines so far have declared, and the open records, the outermost first. -/
structure Progress (n : Nat) where
  table : Table n
  opened : List Open

/-- Tells a failure in which records it arose. -/
def withinAll {α : Type} (opened : List Open) (outcome : Outcome α) : Outcome α :=
  opened.foldr (fun record outcome => outcome.within (.inLine record.line)) outcome

def step (progress : Progress n) (line : Text.Line) : Outcome (Progress n) := do
  let record ← withinAll progress.opened line.record
  if progress.opened.length < record.depth then
    withinAll progress.opened
      (record.fail (.indentation progress.opened.length record))
  else
    let around := progress.opened.take record.depth
    let declared ← withinAll around <|
      Outcome.within (.inLine record.line) <|
        declaration n (around.getLast?.map Open.path) record
    match declared with
    | none => return { progress with opened := around }
    | some declared =>
        return ⟨progress.table.declare declared, around ++ [⟨record.line, declared.path⟩]⟩

/-- The table that the lines of a file hold. -/
def read (n : Nat) (lines : List Text.Line) : Outcome (Table n) :=
  if n < 2 then .error (.malformed 0 (.tooFewNamespaces n))
  else
    match lines with
    | [] => .error (.malformed 1 .noHeader)
    | first :: rest => do
        let labels ← headerLabels n (← first.record)
        let progress ←
          Outcome.within .readingLines (rest.foldlM step ⟨Table.empty labels, []⟩)
        return progress.table

end NameTables.Nested
