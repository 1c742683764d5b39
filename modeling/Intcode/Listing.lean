import Intcode.Instruction
import Intcode.Program
import Intcode.Text.Column

/-!
# Listings

A listing walks through a program from address zero. Where the word decodes and all its operands lie
inside the program, the line shows the instruction and the walk goes on behind it; any other word is
a line of data of its own. The walk knows nothing of jumps, so data that happens to decode is listed
as an instruction.
-/

namespace Intcode

/-- One line of a listing with the address at which it begins. -/
inductive Listing.Line where
  | code (address : Nat) (instruction : Instruction) (operands : List Word)
  | data (address : Nat) (word : Word)
  deriving DecidableEq

namespace Listing

/-- The address at which a line begins. -/
def Line.address : Line → Nat
  | code address .. => address
  | data address _ => address

/-- The number of words that a line covers. -/
def Line.width : Line → Nat
  | code _ instruction _ => instruction.width
  | data .. => 1

/-- A line with its address, flush right in four columns. -/
def Line.render (line : Line) : String :=
  let shown := match line with
    | code _ instruction operands => instruction.render operands
    | data _ word => "DATA " ++ Word.text word
  Text.alignRight 4 (toString line.address) ++ ": " ++ shown ++ "\n"

/-- The line for a word with the words that follow it. -/
def Line.ofWord (address : Nat) (word : Word) (rest : List Word) : Line :=
  match Instruction.decode word with
  | .error _ => data address word
  | .ok instruction =>
    let operands := rest.take instruction.opcode.arity
    if operands.length = instruction.opcode.arity then code address instruction operands
    else data address word

/-- Lists the words from an address on, after passing over the first `skip` of them, which belong to
an instruction already listed. -/
def linesFrom (skip address : Nat) : List Word → List Line
  | [] => []
  | word :: rest =>
    match skip with
    | skip + 1 => linesFrom skip (address + 1) rest
    | 0 =>
      let line := Line.ofWord address word rest
      line :: linesFrom (line.width - 1) (address + 1) rest

end Listing

namespace Program

/-- The lines of a program's listing. -/
def lines (program : Program) : List Listing.Line :=
  Listing.linesFrom 0 0 program.words

/-- The text of a program's listing. -/
def listing (program : Program) : String :=
  String.join (program.lines.map Listing.Line.render)

end Program

end Intcode
