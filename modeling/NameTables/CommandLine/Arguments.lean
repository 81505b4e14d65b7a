import NameTables.Format.Basic

/-! The arguments of the command line.
An option takes its value from the next argument, or from what follows an equals sign, and is given
at most once. What starts with a dash and is longer is an option, up to an argument of two dashes,
after which all arguments are plain. The first argument at fault decides, so a wish for help counts
only if nothing before it is wrong.
-/

namespace NameTables.CommandLine

/-- The formats that a command reads and writes. -/
structure Formats where
  input : Format
  output : Format
  deriving DecidableEq

/-- How two tables are matched: by one namespace, or by one in each. The namespace `key` is in the
right table, and `probe` in the left one.
-/
inductive Matching
  | shared (label : String)
  | apart (key probe : String)
  | absent
  deriving DecidableEq

inductive Command
  | convert (input output : String) (formats : Formats) (source target : Option String)
  | join (left right output : String) (formats : Formats) (source target : String)
      (matching : Matching)
  | migrate (old new output : String) (formats : Formats) (matching named : String)
      (oldLabel newLabel : String)
  deriving DecidableEq

/-- Why arguments make no command. -/
inductive NoCommand
  | help
  | usage
  deriving DecidableEq

/-- What a command takes: a number of paths, and options with a value. -/
structure Signature where
  paths : Nat
  options : List String

/-- The format with a name on the command line. -/
def formatNamed? : String → Option Format
  | "v1" => some .flat
  | "v2" => some .nested
  | _ => none

/-- The options that every command has. -/
def formatOptions : List String := ["input-format", "output-format"]

/-- The arguments so far, with the option that waits for its value. -/
structure Scan where
  plain : List String
  values : List (String × String)
  waiting : Option String
  onlyPlain : Bool

/-- The argument starts with a dash, and something follows. -/
def isDashed (argument : String) : Bool :=
  match argument.toList with
  | '-' :: _ :: _ => true
  | _ => false

/-- The name of a long option, and what follows an equals sign. -/
def longOption? (argument : String) : Option (String × Option String) :=
  match argument.toList with
  | '-' :: '-' :: rest =>
      let name := String.ofList (rest.takeWhile (· ≠ '='))
      match rest.dropWhile (· ≠ '=') with
      | [] => some (name, none)
      | _ :: value => some (name, some (String.ofList value))
  | _ => none

namespace Scan

def start : Scan := ⟨[], [], none, false⟩

def value? (scan : Scan) (name : String) : Option String :=
  (scan.values.find? (·.1 = name)).map Prod.snd

/-- Takes a path, which must not be empty. -/
def addPlain (paths : Nat) (scan : Scan) (argument : String) : Except NoCommand Scan :=
  if argument = "" || paths ≤ scan.plain.length then .error .usage
  else .ok { scan with plain := scan.plain ++ [argument] }

def addValue (scan : Scan) (name value : String) : Except NoCommand Scan :=
  if name ∈ formatOptions && (formatNamed? value).isNone then .error .usage
  else .ok { scan with values := scan.values ++ [(name, value)], waiting := none }

/-- Takes one more argument. -/
def step (signature : Signature) (scan : Scan) (argument : String) : Except NoCommand Scan :=
  if scan.onlyPlain then scan.addPlain signature.paths argument
  else
    match scan.waiting with
    | some name =>
        if isDashed argument then .error .usage else scan.addValue name argument
    | none =>
        if argument = "--" then .ok { scan with onlyPlain := true }
        else
          match longOption? argument with
          | some ("help", none) => .error .help
          | some (name, value) =>
              if name ∉ formatOptions ++ signature.options || (scan.value? name).isSome then
                .error .usage
              else
                match value with
                | some value => scan.addValue name value
                | none => .ok { scan with waiting := some name }
          | none =>
              if isDashed argument then
                .error (if "-h".toList.isPrefixOf argument.toList then .help else .usage)
              else scan.addPlain signature.paths argument

/-- The value of an option that must be given. -/
def require (scan : Scan) (name : String) : Except NoCommand String :=
  match scan.value? name with
  | some value => .ok value
  | none => .error .usage

/-- The format that an option names. -/
def format (scan : Scan) (name : String) : Format :=
  ((scan.value? name).bind formatNamed?).getD .nested

def formats (scan : Scan) : Formats :=
  ⟨scan.format "input-format", scan.format "output-format"⟩

/-- One namespace excludes the other two, and these come together. -/
def matching (scan : Scan) : Except NoCommand Matching :=
  match scan.value? "match", scan.value? "match-a", scan.value? "match-b" with
  | some label, none, none => .ok (.shared label)
  | none, some key, some probe => .ok (.apart key probe)
  | none, none, none => .ok .absent
  | _, _, _ => .error .usage

end Scan

/-- All arguments of a command. -/
def scan (signature : Signature) (arguments : List String) : Except NoCommand Scan := do
  let scan ← arguments.foldlM (Scan.step signature) .start
  if scan.waiting.isSome then throw .usage
  return scan

-----------------------------------------------------------------------------------------
-- Commands
-----------------------------------------------------------------------------------------

def convert (arguments : List String) : Except NoCommand Command := do
  let scan ← scan ⟨2, ["from", "to"]⟩ arguments
  match scan.plain with
  | [input, output] =>
      return .convert input output scan.formats (scan.value? "from") (scan.value? "to")
  | _ => throw .usage

def join (arguments : List String) : Except NoCommand Command := do
  let scan ← scan ⟨3, ["from", "to", "match", "match-a", "match-b"]⟩ arguments
  match scan.plain with
  | [left, right, output] =>
      return .join left right output scan.formats (← scan.require "from")
        (← scan.require "to") (← scan.matching)
  | _ => throw .usage

def migrate (arguments : List String) : Except NoCommand Command := do
  let scan ← scan ⟨3, ["match", "named", "source-label", "target-label"]⟩ arguments
  match scan.plain with
  | [old, new, output] =>
      return .migrate old new output scan.formats (← scan.require "match")
        (← scan.require "named") ((scan.value? "source-label").getD "source")
        ((scan.value? "target-label").getD "target")
  | _ => throw .usage

/-- Help is there for the whole program, and for each command. -/
def help : List String → NoCommand
  | [] => .help
  | [command] =>
      if command ∈ ["convert", "join", "migrate", "help"] then .help else .usage
  | _ => .usage

/-- The letters of flags in one argument, with whether the flag for more messages was given. -/
def flags (verbose : Bool) : List Char → Except NoCommand Bool
  | [] => .ok verbose
  | 'h' :: _ => .error .help
  | 'v' :: rest => if verbose then .error .usage else flags true rest
  | _ => .error .usage

/-- The arguments from one before the command on. -/
def parseAfter (verbose : Bool) : List String → Except NoCommand Command
  | [] => .error .usage
  | "convert" :: rest => convert rest
  | "join" :: rest => join rest
  | "migrate" :: rest => migrate rest
  | "help" :: rest => .error (help rest)
  | "--help" :: _ => .error .help
  | "--verbose" :: rest => if verbose then .error .usage else parseAfter true rest
  | argument :: rest =>
      match argument.toList with
      | '-' :: flag :: more => do parseAfter (← flags verbose (flag :: more)) rest
      | _ => .error .usage

/-- The command that the arguments make. Flags before the command ask for messages on the details of
reading and combining tables as well. These are left out, so a run is told in the same way with such
a flag and without it.
-/
def parse (arguments : List String) : Except NoCommand Command := parseAfter false arguments

end NameTables.CommandLine
