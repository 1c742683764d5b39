/-!
# Blank characters

The blanks that may surround a numeral are the characters with the Unicode property `White_Space`.
The set is wider than `Char.isWhitespace` and narrower than what looks empty on a screen: zero-width
characters and the byte order mark are not in it.
-/

namespace Intcode.Text

/-- Whether a character has the property `White_Space`. -/
def isBlank (c : Char) : Bool :=
  let n := c.toNat
  (0x09 ≤ n && n ≤ 0x0D) || n == 0x20 || n == 0x85 || n == 0xA0 || n == 0x1680 ||
    (0x2000 ≤ n && n ≤ 0x200A) || n == 0x2028 || n == 0x2029 || n == 0x202F || n == 0x205F ||
    n == 0x3000

/-- Drops the blanks at both ends. -/
def trim (cs : List Char) : List Char :=
  ((cs.dropWhile isBlank).reverse.dropWhile isBlank).reverse

end Intcode.Text
