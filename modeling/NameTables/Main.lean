import NameTables.CommandLine.Run

/-! The program `plume`, on real files. -/

namespace NameTables.CommandLine

/-- The number of a system error. Some of them come with a minus sign. -/
def errorNumber (code : UInt32) : UInt32 := if code < 0x80000000 then code else 0 - code

/-- The fault behind a system error. -/
def faultOf (error : IO.Error) : FileFault :=
  match error with
  | .noFileOrDirectory .. => .missing
  | .inappropriateType _ code _ =>
      if errorNumber code = 21 then .directory
      else if errorNumber code = 20 then .notDirectory
      else .other (toString error)
  | .invalidArgument _ code _ =>
      if errorNumber code = 36 then .nameTooLong else .other (toString error)
  | error => .other (toString error)

/-- The content of the file at `path`, or why it cannot be read. -/
def readFile (path : String) : IO (Except FileFault ByteArray) := do
  try
    return .ok (← IO.FS.readBinFile path)
  catch error =>
    return .error (faultOf error)

/-- Runs a command, and gives its exit code. -/
def perform (command : Command) : IO UInt32 := do
  let contents ← command.inputs.mapM fun path => return (path, ← readFile path)
  let reader : Reader := fun path =>
    ((contents.find? (·.1 = path)).map Prod.snd).getD (.error .missing)
  let made := command.product reader
  let fail (failure : Failure) : IO UInt32 := do
    IO.eprint (messages made.log (some failure))
    return 1
  match made.outcome with
  | .error failure => fail failure
  | .ok (text, done) =>
      let written ← try
        IO.FS.writeBinFile command.output text.toUTF8
        pure none
      catch error =>
        pure (some (faultOf error))
      match written with
      | some fault => fail (writeFailure command fault)
      | none =>
          IO.eprint (messages (made.log ++ [done]) none)
          return 0

end NameTables.CommandLine

open NameTables.CommandLine in
def main (arguments : List String) : IO UInt32 := do
  match parse arguments with
  | .ok command => perform command
  | .error .usage =>
      IO.eprintln "usage: plume [-v] (convert | join | migrate) ..."
      return 2
  | .error .help =>
      IO.println "usage: plume [-v] (convert | join | migrate) ..."
      return 0
