import NameTables.Text.Hidden

/-! Text in double quotes, as messages show it.
The quote and the backslash get a backslash, four control characters have names, and every
other hidden character is written by its code point.
-/

namespace NameTables.Text

/-- The spelling of a code point, in lower case hexadecimal digits without leading zeros. -/
def codePoint (c : Char) : List Char :=
  "\\u\x7b".toList ++ Nat.toDigits 16 c.toNat ++ ['\x7d']

def escape (c : Char) : List Char :=
  if c = '"' then ['\\', '"']
  else if c = '\\' then ['\\', '\\']
  else if c = '\t' then ['\\', 't']
  else if c = '\n' then ['\\', 'n']
  else if c = '\r' then ['\\', 'r']
  else if c = '\x00' then ['\\', '0']
  else if isHidden c then codePoint c
  else [c]

def quote (text : String) : String :=
  String.ofList ('"' :: text.toList.flatMap escape ++ ['"'])

/-- Items in square brackets, separated by commas. -/
def bracket (items : List String) : String :=
  "[" ++ ", ".intercalate items ++ "]"

/-- A list of quoted texts. -/
def quoteList (texts : List String) : String := bracket (texts.map quote)

end NameTables.Text
