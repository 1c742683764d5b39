/-!
# Words

Everything an Intcode machine handles is a word: instructions, addresses, data and the relative base
are all integers of any size. This module fixes the type and its decimal text.

## Reading and writing

* `Word.text` writes the one canonical numeral: a minus sign for a negative word, no leading zero.
* `Word.ofChars?` reads more than it writes: one sign of either kind, leading zeros, and underscores
  anywhere behind the first digit, which group digits and count for nothing.
-/

namespace Intcode

/-- An integer of any size. -/
abbrev Word := Int

namespace Word

/-- The canonical decimal numeral of a word. -/
def text (word : Word) : String :=
  Int.repr word

/-- Continues a numeral whose digits so far are worth `value`: digits extend it, underscores are
skipped, and anything else refuses the whole numeral. -/
def digitsFrom (value : Nat) : List Char → Option Nat
  | [] => some value
  | c :: rest =>
    if c.isDigit then digitsFrom (10 * value + (c.toNat - '0'.toNat)) rest
    else if c = '_' then digitsFrom value rest
    else none

/-- Reads an unsigned numeral, which begins with a digit. -/
def magnitude? : List Char → Option Nat
  | [] => none
  | c :: rest => if c.isDigit then digitsFrom 0 (c :: rest) else none

/-- Reads a numeral with at most one sign in front. -/
def ofChars? : List Char → Option Word
  | '-' :: rest => (magnitude? rest).map fun n => -(n : Int)
  | '+' :: rest => (magnitude? rest).map fun n => (n : Int)
  | cs => (magnitude? cs).map fun n => (n : Int)

end Word

end Intcode
