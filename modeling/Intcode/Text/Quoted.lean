import Intcode.Text.Hidden

/-!
# Quoted text

Messages show a piece of foreign text between double quotes. A double quote and a backslash inside
are written with a backslash in front, four controls have short names, and every other hidden
character is written as its number, so the quoted form is one line whose characters can all be seen.
-/

namespace Intcode.Text

/-- The lower-case hexadecimal numeral of a character's number, without leading zeros. -/
def hexNumeral (c : Char) : List Char :=
  Nat.toDigits 16 c.toNat

/-- How a character is written inside quotes. -/
def quoteChar (c : Char) : List Char :=
  if c = '"' then ['\\', '"']
  else if c = '\\' then ['\\', '\\']
  else if c = '\x00' then ['\\', '0']
  else if c = '\t' then ['\\', 't']
  else if c = '\r' then ['\\', 'r']
  else if c = '\n' then ['\\', 'n']
  else if isHidden c then ['\\', 'u', '\x7b'] ++ hexNumeral c ++ ['\x7d']
  else [c]

/-- A text between double quotes. -/
def quoted (text : String) : String :=
  String.ofList (['"'] ++ text.toList.flatMap quoteChar ++ ['"'])

end Intcode.Text
