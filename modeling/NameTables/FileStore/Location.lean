/-! Places of files, and how paths are taken apart.
A path names one part after the other, with slashes between them. It begins at the directory where
the program works, or at the root if it begins with a slash. Directories above the working one have
no known names, so they are counted.
-/

namespace NameTables

/-- The directory that a location is counted from. -/
inductive Base
  | root
  | above (levels : Nat)
  deriving DecidableEq

/-- The place of a file or directory: the names on the way to it from its base. -/
structure Location where
  base : Base
  names : List String
  deriving DecidableEq

namespace Location

def root : Location := ⟨.root, []⟩

/-- The directory where the program works. -/
def working : Location := ⟨.above 0, []⟩

/-- The directory around this one. The root is around itself. -/
def parent : Location → Location
  | ⟨base, name :: names⟩ => ⟨base, (name :: names).dropLast⟩
  | ⟨.above levels, []⟩ => ⟨.above (levels + 1), []⟩
  | ⟨.root, []⟩ => root

def child (directory : Location) (name : String) : Location :=
  ⟨directory.base, directory.names ++ [name]⟩

/-- The location is below the directory, directly or not. -/
def isBelow (location directory : Location) : Bool :=
  location.base = directory.base && directory.names.isPrefixOf location.names
    && location.names ≠ directory.names

/-- A name has at most 255 bytes. -/
def fits (location : Location) : Bool :=
  location.names.all fun name => name.utf8ByteSize ≤ 255

end Location

/-- A path that is taken apart. Neither leading nor trailing slashes are parts. -/
structure FilePath where
  start : Location
  parts : List String
  endsWithSlash : Bool

def FilePath.ofText (text : String) : FilePath :=
  { start := if text.toList.head? = some '/' then .root else .working
    parts := ((text.toList.splitOn '/').map String.ofList).filter (· ≠ "")
    endsWithSlash := text.toList.getLast? = some '/' }

end NameTables
