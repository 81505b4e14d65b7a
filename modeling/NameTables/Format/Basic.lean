/-! The two text formats for tables. -/

namespace NameTables

/-- A flat file lists classes and members line by line, with the owner on the line of a member.
A nested file indents members below their class.
-/
inductive Format
  | flat
  | nested
  deriving DecidableEq

/-- The word for a format in messages. -/
def Format.word : Format → String
  | .flat => "tiny v1"
  | .nested => "tiny v2"

end NameTables
