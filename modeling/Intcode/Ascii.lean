import Intcode.Word

/-!
# Text as words

Programs that converse in text read and write one word per character. A line of text becomes the
bytes of its UTF-8 encoding and a newline. Output words that are ASCII codes are characters again;
any other word is a number, and stands in decimal on a line of its own.
-/

namespace Intcode.Ascii

/-- The code of the newline. -/
def newline : Word := 10

/-- A line of text as words: its bytes, then a newline. -/
def encodeLine (line : String) : List Word :=
  line.toUTF8.toList.map (fun byte => (byte.toNat : Word)) ++ [newline]

/-- The character that a word is the ASCII code of. -/
def char? (word : Word) : Option Char :=
  if 0 ≤ word ∧ word < 128 then some (Char.ofNat word.toNat) else none

/-- Whether the next number has to begin a new line: the text so far is not empty and its last
character is no newline. The text is held in reverse. -/
def isMidLine : List Char → Bool
  | [] => false
  | last :: _ => last != '\n'

/-- Lays out one more word behind a text held in reverse. -/
def layOut (text : List Char) (word : Word) : List Char :=
  match char? word with
  | some c => c :: text
  | none =>
    let start := if isMidLine text then '\n' :: text else text
    '\n' :: ((Word.text word).toList.reverse ++ start)

/-- Output words as text. -/
def render (words : List Word) : String :=
  String.ofList (words.foldl layOut []).reverse

end Intcode.Ascii
