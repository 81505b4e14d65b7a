import NameTables.CommandLine.Arguments
import NameTables.Format
import NameTables.Join

/-! Running a command.
A command reads its inputs, makes a table of them, and writes it to the output. Nothing is written
before the whole text is made, so a command that fails changes no file.
-/

namespace NameTables.CommandLine

/-- The result of a step and the messages on the way to it. -/
structure Logged (α : Type) where
  log : List String
  outcome : Outcome α

/-- Gives the content of the file at a path. -/
abbrev Reader := String → Except FileFault ByteArray

/-- An input file with the number of namespaces that its header has. -/
structure Input where
  path : String
  format : Format
  content : ByteArray
  count : Nat

namespace Input

def load (reader : Reader) (format : Format) (path : String) : Outcome Input :=
  let failed (fault : FileFault) : Outcome Input :=
    Outcome.within (.loading path) (.fail (.file fault))
  match reader path with
  | .error fault => failed fault
  | .ok content =>
      match String.fromUTF8? content with
      | none => failed .undecodable
      | some text => do
          let count ← (format.countLabels (Text.firstLine text)).within (.readingHeader path)
          return ⟨path, format, content, count⟩

/-- Between two and five namespaces are supported. -/
def checkCount (input : Input) : Outcome (PLift (2 ≤ input.count)) :=
  if h : 2 ≤ input.count ∧ input.count ≤ 5 then .ok ⟨h.1⟩
  else .fail (.unsupportedCount input.count)

def table (input : Input) : Outcome (Table input.count) :=
  (input.format.read input.count input.content).within (.reading input.path)

end Input

-----------------------------------------------------------------------------------------
-- Tables of the commands
-----------------------------------------------------------------------------------------

def convertMessage (path source target : String) : String :=
  "[INFO plume] converting " ++ Text.quote path ++ " from " ++ Text.quote source ++ " to "
    ++ Text.quote target

def wroteMessage (count : Nat) (path : String) : String :=
  "[INFO plume] wrote " ++ toString count ++ " classes to " ++ Text.quote path

/-- The first two labels stand in for labels that are not given. -/
def convertLabels {n : Nat} (two : 2 ≤ n) (table : Table n) (source target : Option String)
    : String × String :=
  (source.getD table.labels.texts[0], target.getD table.labels.texts[1])

def convertedTable (reader : Reader) (format : Format) (path : String)
    (source target : Option String)
    : Logged (Table 2) :=
  let read : Outcome ((Σ n, Table n) × String × String) := do
    let input ← Input.load reader format path
    let ⟨two⟩ ← input.checkCount
    let table ← input.table
    return ⟨⟨_, table⟩, convertLabels two table source target⟩
  match read with
  | .error failure => ⟨[], .error failure⟩
  | .ok (⟨_, table⟩, source, target) =>
      ⟨[convertMessage path source target], table.project source target⟩

/-- Reads two tables and combines them. Both are loaded before either is looked at. -/
def combinedTable (reader : Reader) (format : Format) (left right : String)
    (combine : {m n : Nat} → Table m → Table n → Outcome (Table 2))
    : Outcome (Table 2) := do
  let left ← Input.load reader format left
  let right ← Input.load reader format right
  let _ ← left.checkCount
  let _ ← right.checkCount
  let leftTable ← left.table
  let rightTable ← right.table
  combine leftTable rightTable

/-- The labels to join by, if the command gives a way to match. -/
def joinLabels (source target : String) : Matching → Outcome JoinLabels
  | .shared label => .ok ⟨source, label, target, label⟩
  | .apart key probe => .ok ⟨source, probe, target, key⟩
  | .absent => .fail .noMatching

namespace Command

/-- The files that the command reads. -/
def inputs : Command → List String
  | .convert input .. => [input]
  | .join left right .. => [left, right]
  | .migrate old new .. => [old, new]

def output : Command → String
  | .convert _ output .. => output
  | .join _ _ output .. => output
  | .migrate _ _ output .. => output

def formats : Command → Formats
  | .convert _ _ formats .. => formats
  | .join _ _ _ formats .. => formats
  | .migrate _ _ _ formats .. => formats

/-- The table that the command makes. -/
def table (reader : Reader) : Command → Logged (Table 2)
  | .convert input _ formats source target =>
      convertedTable reader formats.input input source target
  | .join left right _ formats source target matching =>
      ⟨[], do
        let labels ← joinLabels source target matching
        combinedTable reader formats.input left right fun left right => left.join right labels⟩
  | .migrate old new _ formats matching named oldLabel newLabel =>
      ⟨[], combinedTable reader formats.input old new fun old new =>
        old.migrate new matching named oldLabel newLabel⟩

/-- The text that the command writes, and the message when it is written. -/
def product (reader : Reader) (command : Command) : Logged (String × String) :=
  let made := command.table reader
  let format := command.formats.output
  ⟨made.log, do
    let table ← made.outcome
    let text ← (format.write table).within (.writingAs format)
    return (text, wroteMessage table.classes.size command.output)⟩

end Command

-----------------------------------------------------------------------------------------
-- Runs
-----------------------------------------------------------------------------------------

/-- How a run ends. The texts of help and usage are not part of it, and the messages are those that
come without being asked for.
-/
structure Exit where
  code : Nat
  messages : Option String
  store : FileStore

/-- All messages, and the report of a failure below them. -/
def messages (log : List String) (failure : Option Failure) : String :=
  String.join (log.map (· ++ "\n")) ++ (failure.map Failure.report).getD ""

/-- The failure of a command whose output cannot be written. -/
def writeFailure (command : Command) (fault : FileFault) : Failure :=
  Failure.within (.writing command.output) (.of (.file fault))

/-- Writes what the command made. -/
def Command.finish (command : Command) (store : FileStore) (made : Logged (String × String))
    : Exit :=
  match made.outcome with
  | .error failure => ⟨1, some (messages made.log (some failure)), store⟩
  | .ok (text, done) =>
      match store.write command.output text.toUTF8 with
      | .error fault => ⟨1, some (messages made.log (some (writeFailure command fault))), store⟩
      | .ok store => ⟨0, some (messages (made.log ++ [done]) none), store⟩

def Command.run (command : Command) (store : FileStore) : Exit :=
  command.finish store (command.product store.read)

/-- Runs the command that the arguments make. -/
def run (arguments : List String) (store : FileStore) : Exit :=
  match parse arguments with
  | .error .usage => ⟨2, none, store⟩
  | .error .help => ⟨0, some "", store⟩
  | .ok command => command.run store

end NameTables.CommandLine
