import NameTables.Names
import NameTables.Text.Line

/-! Taking the fields of a record.
Fields are taken from the front, and the rest are names or labels, one for each namespace.
-/

namespace NameTables

/-- Puts one more decimal digit behind a number that must stay below 2^64. -/
def addDigit (value : Nat) (c : Char) : Except DigitFault Nat :=
  if c.isDigit then
    let value := 10 * value + (c.toNat - '0'.toNat)
    if value < UInt64.size then .ok value else .error .overflow
  else .error .invalid

/-- The number that the digits write. The first character at fault decides which fault it is. -/
def indexOfDigits (digits : List Char) : Except DigitFault UInt64 :=
  match digits.foldlM addDigit 0 with
  | .ok value => .ok (.ofNat value)
  | .error fault => .error fault

/-- The text as a parameter index: digits after one optional plus sign. -/
def parameterIndex (text : String) : Except DigitFault UInt64 :=
  match text.toList with
  | [] => .error .empty
  | ['+'] => .error .invalid
  | '+' :: digits => indexOfDigits digits
  | digits => indexOfDigits digits

/-- The record on a line, if the line is UTF-8. -/
def Text.Line.record (line : Text.Line) : Outcome Record :=
  match line.text with
  | some text => .ok { Row.parse text with line := line.number }
  | none => .fail (.file .undecodable)

namespace Record

def fail {α : Type} (record : Record) (what : Malformation) : Outcome α :=
  .error (.malformed record.line what)

/-- The next field, and the record without it. -/
def take (record : Record) : Outcome (String × Record) :=
  match record.fields with
  | field :: rest => .ok (field, { record with fields := rest })
  | [] => record.fail (.missingField record)

/-- All fields as labels. -/
def labels (n : Nat) (record : Record) : Outcome (Labels n) :=
  match vectorOf? n record.fields with
  | none => record.fail (.labelCount n record.fields)
  | some texts =>
      if "" ∈ record.fields then record.fail (.emptyLabel record.fields) else .ok ⟨texts⟩

/-- All fields as names. -/
def names (n : Nat) (kind : Kind) (record : Record) : Outcome (Names n kind) :=
  match vectorOf? n record.fields with
  | none => record.fail (.nameCount n record.fields)
  | some texts => .ok (.ofTexts texts)

/-- All fields as names, of which the first one must be there. -/
def keyedNames (n : Nat) (kind : Kind) (record : Record)
    : Outcome (Name kind × Names n kind) := do
  let names ← record.names n kind
  match names.first? with
  | some name => return (name, names)
  | none => record.fail .noFirstName

/-- The next field as the descriptor of a field. -/
def takeFieldDescriptor (record : Record) : Outcome (Option Descriptor × Record) := do
  let (text, record) ← record.take
  return (if text = "" then none else some ⟨text⟩, record)

/-- The next field as the descriptor of a method, which must not be empty. -/
def takeMethodDescriptor (record : Record) : Outcome (Descriptor × Record) := do
  let (text, record) ← record.take
  if text = "" then record.fail .noMethodDescriptor else return (⟨text⟩, record)

end Record

end NameTables
