import NameTables.FileStore
import NameTables.Format.FlatReader
import NameTables.Format.FlatWriter
import NameTables.Format.NestedReader
import NameTables.Format.NestedWriter
import NameTables.Projection

/-! Reading and writing tables in either format, and in files. -/

namespace NameTables

namespace Format

/-- The table in the content of a file. -/
def read (format : Format) (n : Nat) (content : ByteArray) : Outcome (Table n) :=
  match format with
  | .flat => Flat.read n (Text.Line.ofContent content)
  | .nested => Nested.read n (Text.Line.ofContent content)

/-- Reads a table with `n` namespaces, and projects it onto two of them. -/
def readProjection (format : Format) (n : Nat) (content : ByteArray) (source target : String)
    : Outcome (Table 2) := do
  (← format.read n content).project source target

/-- The text of a file with the table, under the labels `source` and `target`. -/
def writeWith (format : Format) (table : Table 2) (source target : String)
    (arrangement : Arrangement)
    : Outcome String :=
  match format with
  | .flat => Flat.write table source target arrangement
  | .nested => Nested.write table source target arrangement

/-- The text of a file with the table, under its own labels and in the usual order. -/
def write (format : Format) (table : Table 2) : Outcome String :=
  format.writeWith table table.labels.texts[0] table.labels.texts[1] .byName

/-- What a header begins with. -/
def opening : Format → List Char
  | .flat => "v1\t".toList
  | .nested => "tiny\t2\t0\t".toList

/-- The text without line ends behind it. -/
def trimLineEnd (text : List Char) : List Char :=
  (text.reverse.dropWhile fun c => c = '\r' || c = '\n').reverse

/-- The number of labels in a header line. -/
def countLabels (format : Format) (header : String) : Outcome Nat :=
  let header := trimLineEnd header.toList
  match format.opening.isPrefixOf? header with
  | some labels => .ok (labels.splitOn '\t').length
  | none => .error (.malformed 1 (.headerText format (String.ofList header)))

/-- Reads what was opened. No table can have less than two namespaces, whatever the file holds. -/
def readOpened (format : Format) (n : Nat) (content : Except FileFault ByteArray)
    : Outcome (Table n) :=
  match content with
  | .ok content => format.read n content
  | .error fault =>
      if n < 2 then .error (.malformed 0 (.tooFewNamespaces n)) else .fail (.file fault)

def load (format : Format) (n : Nat) (store : FileStore) (path : String)
    : Outcome (Table n) :=
  match store.openAt path with
  | .error fault => Outcome.within (.opening path) (.fail (.file fault))
  | .ok content => (format.readOpened n content).within (.readingAs path format)

/-- Writes to the file at `path`, which stays as it is if the table cannot be written. -/
def save (format : Format) (table : Table 2) (source target : String)
    (arrangement : Arrangement) (store : FileStore) (path : String)
    : Outcome FileStore := do
  let text ← (format.writeWith table source target arrangement).within (.writingAs format)
  match store.write path text.toUTF8 with
  | .ok store => return store
  | .error fault => Outcome.within (.writing path) (.fail (.file fault))

end Format

/-- Reads a nested file, without a word on opening it. -/
def Nested.load (n : Nat) (store : FileStore) (path : String) : Outcome (Table n) :=
  match store.openAt path with
  | .error fault => .fail (.file fault)
  | .ok content => (Format.nested.readOpened n content).within (.readingAs path .nested)

end NameTables
