import Intcode.Word
import Intcode.Text.Blank
import Intcode.Text.Quoted

/-!
# Programs and their wire format

A program is the list of words with which a memory begins. Its wire format is decimal numerals
separated by commas, with blanks allowed around the whole and around every numeral.

`Program.parse` reports the first numeral that cannot be read, with its place in the list;
`Program.text` writes the form without blanks.
-/

namespace Intcode

/-- A memory image: the words of the cells from address zero on. -/
structure Program where
  words : List Word
  deriving DecidableEq

/-- Why a text is no program. -/
inductive LoadError where
  | empty
  | invalidToken (index : Nat) (token : String)
  deriving DecidableEq

/-- The wording of a refusal. -/
def LoadError.message : LoadError → String
  | empty => "empty program image"
  | invalidToken index token =>
    "invalid token " ++ Text.quoted token ++ s!" at position {index}"

namespace Program

/-- Reads the numerals between the commas; `index` counts those already read. -/
def readTokens (index : Nat) : List (List Char) → Except LoadError (List Word)
  | [] => .ok []
  | piece :: rest =>
    let token := Text.trim piece
    match Word.ofChars? token with
    | none => .error (.invalidToken index (String.ofList token))
    | some word => (readTokens (index + 1) rest).map (word :: ·)

/-- Reads the wire format. A text that is all blanks is refused as empty; otherwise there is one
numeral before, between and behind all commas. -/
def parse (text : String) : Except LoadError Program :=
  match Text.trim text.toList with
  | [] => .error .empty
  | body => (readTokens 0 (body.splitOn ',')).map Program.mk

/-- Writes the wire format. -/
def text (program : Program) : String :=
  ",".intercalate (program.words.map Word.text)

end Program

end Intcode
