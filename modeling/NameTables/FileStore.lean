import NameTables.Failure
import NameTables.FileStore.Location
import NameTables.OrderedMap

/-! The files that a program can reach.
A directory is there when a file stands below it. Those that paths start from, and those around
them, always are.
-/

namespace NameTables

structure FileStore where
  files : OrderedMap Location ByteArray

/-- What is at a location. -/
inductive FileStore.Found
  | file (content : ByteArray)
  | directory
  | nothing

/-- What a path leads to. An entry is something in a directory, or could be. -/
inductive FileStore.Place
  | directory
  | entry (location : Location)

namespace FileStore

def empty : FileStore := ⟨.empty⟩

def isDirectory (store : FileStore) (location : Location) : Bool :=
  location.names.isEmpty || store.files.keys.any fun file => file.isBelow location

def look (store : FileStore) (location : Location) : Except FileFault Found :=
  if !location.fits then .error .nameTooLong
  else if store.isDirectory location then .ok .directory
  else
    match store.files.get? location with
    | some content => .ok (.file content)
    | none => .ok .nothing

/-- Goes from one directory to the next. -/
def enter (store : FileStore) (directory : Location) (part : String)
    : Except FileFault Location :=
  if part = "." then .ok directory
  else if part = ".." then .ok directory.parent
  else do
    match ← store.look (directory.child part) with
    | .directory => return directory.child part
    | .file _ => throw .notDirectory
    | .nothing => throw .missing

/-- Follows a path through directories up to its last part. -/
def follow (store : FileStore) (path : FilePath) : Except FileFault Place := do
  let directory ← path.parts.dropLast.foldlM store.enter path.start
  return match path.parts.getLast? with
    | none | some "." | some ".." => .directory
    | some name => .entry (directory.child name)

/-- No path is empty, has a null character, or is longer than 4095 bytes. -/
def checkPath (path : String) : Except FileFault Unit :=
  if '\x00' ∈ path.toList then .error .nullInName
  else if path = "" then .error .missing
  else if 4095 < path.utf8ByteSize then .error .nameTooLong
  else .ok ()

/-- Opens what is at `path`. A directory can be opened, but not read. -/
def openAt (store : FileStore) (path : String)
    : Except FileFault (Except FileFault ByteArray) := do
  checkPath path
  let path := FilePath.ofText path
  match ← store.follow path with
  | .directory => return .error .directory
  | .entry location =>
      match ← store.look location with
      | .directory => return .error .directory
      | .nothing => throw .missing
      | .file content =>
          if path.endsWithSlash then throw .notDirectory
          return .ok content

/-- The content of the file at `path`. -/
def read (store : FileStore) (path : String) : Except FileFault ByteArray := do
  ← store.openAt path

/-- Replaces the file at `path`, or makes one. A slash at the end stands for a directory, whether
there is one or not.
-/
def write (store : FileStore) (path : String) (content : ByteArray)
    : Except FileFault FileStore := do
  checkPath path
  let path := FilePath.ofText path
  match ← store.follow path with
  | .directory => throw .directory
  | .entry location =>
      if path.endsWithSlash then throw .directory
      match ← store.look location with
      | .directory => throw .directory
      | .file _ | .nothing => return ⟨store.files.upsert location content fun _ => content⟩

/-- The content of the file at `path` as text. -/
def text? (store : FileStore) (path : String) : Option String :=
  match store.read path with
  | .ok content => String.fromUTF8? content
  | .error _ => none

end FileStore

end NameTables
