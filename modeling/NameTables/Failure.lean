import NameTables.Format.Basic
import NameTables.Format.Row
import NameTables.Name

/-! Failures: a cause, and what was being done when it arose.
Causes hold what went wrong, and the functions `message` hold all wording. A failure is shown on
one line, or as a report with the cause below what was being done.
-/

namespace NameTables

/-- What the file system can object to. -/
inductive FileFault
  | missing
  | directory
  | notDirectory
  | undecodable
  | nameTooLong
  | nullInName
  | other (text : String)
  deriving DecidableEq

def FileFault.message : FileFault → String
  | .missing => "No such file or directory (os error 2)"
  | .directory => "Is a directory (os error 21)"
  | .notDirectory => "Not a directory (os error 20)"
  | .undecodable => "stream did not contain valid UTF-8"
  | .nameTooLong => "File name too long (os error 36)"
  | .nullInName => "file name contained an unexpected NUL byte"
  | .other text => text

/-- Why a text is no parameter index. -/
inductive DigitFault
  | empty
  | invalid
  | overflow
  deriving DecidableEq

def DigitFault.message : DigitFault → String
  | .empty => "cannot parse integer from empty string"
  | .invalid => "invalid digit found in string"
  | .overflow => "number too large to fit in target type"

def emptyLabelMessage (labels : List String) : String :=
  "found empty namespace name in " ++ Text.quoteList labels
    ++ ", every namespace name must be non-empty"

/-- What is wrong with the shape of an input. -/
inductive Malformation
  | tooFewNamespaces (count : Nat)
  | noHeader
  | flatHeader (record : Record)
  | nestedHeader (record : Record)
  | headerText (format : Format) (text : String)
  | missingField (record : Record)
  | labelCount (expected : Nat) (fields : List String)
  | emptyLabel (labels : List String)
  | nameCount (expected : Nat) (fields : List String)
  | noFirstName
  | indented
  | noMethodDescriptor
  | unknownTag (tag : String)
  | indentation (expected : Nat) (record : Record)
  | parameterIndex (text : String) (fault : DigitFault)
  | openReference (descriptor : Descriptor)
  deriving DecidableEq

def Malformation.message : Malformation → String
  | .tooFewNamespaces count =>
      "must read at least two namespaces, " ++ toString count ++ " is less than that"
  | .noHeader => "no header line"
  | .flatHeader record => "header isn't a tiny v1 header: " ++ record.display
  | .nestedHeader record => "header version isn't tiny v2.0: " ++ record.display
  | .headerText format text =>
      "header isn't a " ++ format.word ++ " header: " ++ Text.quote text
  | .missingField record => "expected another field: " ++ record.display
  | .labelCount expected fields =>
      "contained more or less namespaces (" ++ toString fields.length ++ ") than the expected "
        ++ toString expected ++ ": " ++ Text.quoteList fields
  | .emptyLabel labels => emptyLabelMessage labels
  | .nameCount expected fields =>
      "contained more or less names (" ++ toString fields.length ++ ") than the expected "
        ++ toString expected ++ ": " ++ Text.quoteList fields
  | .noFirstName => "the name in the first namespace must not be empty"
  | .indented => "tiny v1 lines must not be indented"
  | .noMethodDescriptor => "method descriptor must not be empty"
  | .unknownTag tag => "unknown record tag " ++ Text.quote tag
  | .indentation expected record =>
      "expected an indentation of " ++ toString expected ++ ", got " ++ toString record.depth
        ++ ": " ++ record.display
  | .parameterIndex text fault =>
      "invalid parameter index " ++ Text.quote text ++ ": " ++ fault.message
  | .openReference descriptor =>
      "descriptor " ++ Text.quote descriptor.text ++ " has a missing semicolon somewhere"

/-- The root of a failure. An input without a line at fault is malformed in line zero. -/
inductive Cause
  | malformed (line : Nat) (what : Malformation)
  | unknownLabel (label : String) (available : List String)
  | missingDescriptor (owner : ClassName) (member : String)
  | file (fault : FileFault)
  | emptyLabel (labels : List String)
  | otherLabels (expected actual : List String)
  | emptyName (kind : Kind) (slots : List (Option String))
  | noNamespaces
  | firstNameAbsent (kind : Kind) (slots : List (Option String))
  | namespaceOutOfRange (id count : Nat)
  | firstNameFixed
  | unsupportedCount (count : Nat)
  | noMatching
  deriving DecidableEq

def Cause.message : Cause → String
  | .malformed line what =>
      "malformed input in line " ++ toString line ++ ": " ++ what.message
  | .unknownLabel label available =>
      "cannot find namespace " ++ Text.quote label ++ ", only got " ++ Text.quoteList available
  | .missingDescriptor owner member =>
      "member " ++ Text.quote member ++ " in class " ++ Text.quote owner.text
        ++ " has no descriptor, but writing it requires one"
  | .file fault => fault.message
  | .emptyLabel labels => emptyLabelMessage labels
  | .otherLabels expected actual =>
      "expected namespaces " ++ Text.quoteList expected ++ ", got " ++ Text.quoteList actual
  | .emptyName kind slots =>
      "cannot create names where an existing name is an empty string: "
        ++ kind.displaySlots slots
  | .noNamespaces => "N = 0 is too small for having a name in first namespace"
  | .firstNameAbsent kind slots =>
      "no name for the first namespace: " ++ kind.displaySlots slots
  | .namespaceOutOfRange id count =>
      "cannot create namespace with id larger or equal to number of namespaces: "
        ++ toString id ++ " >= " ++ toString count
  | .firstNameFixed =>
      "cannot edit the first namespace, as it needs to be kept in sync with the keys"
  | .unsupportedCount count =>
      "mappings with " ++ toString count ++ " namespaces aren't supported, only 2 to 5 are"
  | .noMatching => "either --match, or both --match-a and --match-b must be given"

/-- What was being done when a cause arose. -/
inductive Activity
  | readingLines
  | inLine (line : Nat)
  | fieldDescriptor (field : FieldName) (owner : ClassName)
  | methodDescriptor (method : MethodName) (owner : ClassName)
  | opening (path : String)
  | readingAs (path : String) (format : Format)
  | loading (path : String)
  | readingHeader (path : String)
  | reading (path : String)
  | writingAs (format : Format)
  | writing (path : String)
  deriving DecidableEq

def Activity.message : Activity → String
  | .readingLines => "reading lines"
  | .inLine line => "in line " ++ toString line
  | .fieldDescriptor field owner =>
      "failed to remap descriptor of field " ++ Kind.field.display field.text
        ++ " in class " ++ Kind.cls.display owner.text
  | .methodDescriptor method owner =>
      "failed to remap descriptor of method " ++ Kind.method.display method.text
        ++ " in class " ++ Kind.cls.display owner.text
  | .opening path => "failed to open mappings file " ++ Text.quote path
  | .readingAs path format =>
      "failed to read mappings file " ++ Text.quote path ++ " as " ++ format.word ++ " file"
  | .loading path => "failed to read mappings file " ++ Text.quote path
  | .readingHeader path => "failed to read header of " ++ Text.quote path
  | .reading path => "failed to read " ++ Text.quote path
  | .writingAs format => "failed to write mappings as " ++ format.word
  | .writing path => "failed to write mappings file " ++ Text.quote path

/-- A cause below what was being done, the outermost activity first. -/
structure Failure where
  during : List Activity
  cause : Cause
  deriving DecidableEq

namespace Failure

def of (cause : Cause) : Failure := ⟨[], cause⟩

def malformed (line : Nat) (what : Malformation) : Failure := of (.malformed line what)

def within (activity : Activity) (failure : Failure) : Failure :=
  { failure with during := activity :: failure.during }

/-- All messages, the outermost first. -/
def messages (failure : Failure) : List String :=
  failure.during.map Activity.message ++ [failure.cause.message]

def oneLine (failure : Failure) : String := ": ".intercalate failure.messages

/-- Several causes are numbered, with the numbers set to a width of five. -/
def numbered (messages : List String) : String :=
  String.join <| messages.zipIdx.map fun (message, i) =>
    String.ofList (List.replicate (5 - (toString i).length) ' ')
      ++ toString i ++ ": " ++ message ++ "\n"

/-- The outermost message, and below it what caused it. -/
def report (failure : Failure) : String :=
  match failure.messages with
  | [] => ""
  | [outermost] => "Error: " ++ outermost ++ "\n"
  | [outermost, cause] =>
      "Error: " ++ outermost ++ "\n\nCaused by:\n    " ++ cause ++ "\n"
  | outermost :: causes =>
      "Error: " ++ outermost ++ "\n\nCaused by:\n" ++ numbered causes

end Failure

/-- A value, or why there is none. -/
abbrev Outcome (α : Type) := Except Failure α

namespace Outcome

def fail {α : Type} (cause : Cause) : Outcome α := .error (.of cause)

/-- Tells a failure what was being done. -/
def within {α : Type} (activity : Activity) : Outcome α → Outcome α
  | .error failure => .error (failure.within activity)
  | .ok value => .ok value

end Outcome

end NameTables
