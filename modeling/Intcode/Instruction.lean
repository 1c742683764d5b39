import Intcode.Opcode
import Intcode.Word

/-!
# Instruction words

An instruction word holds an opcode in its two lowest decimal digits and above them one digit for the
addressing mode of each of up to three parameters, the first parameter lowest. All three mode digits
are always read and have to be valid, also those of parameters that the opcode does not have.

## Contents

* `Mode` and `Instruction`, with `Instruction.encode` for the word of an instruction.
* `Instruction.decode`, which refuses a word with a `DecodeError` that names the first thing wrong.
* `Instruction.render`, the line of a listing.
-/

namespace Intcode

/-- How a parameter's word leads to its value: through the cell that it addresses, by itself, or
through the cell at that distance from the relative base. -/
inductive Mode where
  | position
  | immediate
  | relative
  deriving DecidableEq

namespace Mode

/-- The digit that stands for the mode. -/
def digit : Mode → Nat
  | position => 0
  | immediate => 1
  | relative => 2

/-- The mode with a given digit, if there is one. -/
def ofDigit? : Nat → Option Mode
  | 0 => some position
  | 1 => some immediate
  | 2 => some relative
  | _ => none

@[simp] theorem ofDigit?_digit (mode : Mode) : ofDigit? mode.digit = some mode := by
  cases mode <;> rfl

/-- A digit names at most one mode, the one whose digit it is. -/
theorem ofDigit?_eq_some_iff {n : Nat} {mode : Mode} : ofDigit? n = some mode ↔ n = mode.digit := by
  constructor
  · intro h
    unfold ofDigit? at h
    split at h <;> cases h <;> rfl
  · rintro rfl
    exact ofDigit?_digit mode

/-- Every mode is a single digit, at most two. -/
theorem digit_lt (mode : Mode) : mode.digit < 3 := by
  cases mode <;> decide

/-- An operand as a listing shows it: an address in brackets, a value plain, and a distance with the
relative base that it is counted from. -/
def render (operand : Word) : Mode → String
  | position => "[" ++ Word.text operand ++ "]"
  | immediate => Word.text operand
  | relative =>
    if operand < 0 then "[rb-" ++ Word.text (-operand) ++ "]" else "[rb+" ++ Word.text operand ++ "]"

end Mode

/-- Why a word is no instruction. Parameters count from one. -/
inductive DecodeError where
  | unknownOpcode (code : Nat)
  | invalidMode (param mode : Nat)
  | negativeWord (word : Word)
  | excessModeDigits (word : Word)
  deriving DecidableEq

/-- The wording of a refusal. -/
def DecodeError.message : DecodeError → String
  | unknownOpcode code => s!"unknown opcode {code}"
  | invalidMode param mode => s!"invalid addressing mode {mode} for parameter {param}"
  | negativeWord word => "negative instruction word " ++ Word.text word
  | excessModeDigits word =>
    "instruction word " ++ Word.text word ++ " has more than three mode digits"

/-- The operation with a given number. -/
def Opcode.ofCode (code : Nat) : Except DecodeError Opcode :=
  match ofCode? code with
  | some op => .ok op
  | none => .error (.unknownOpcode code)

/-- The mode with a given digit, for a given parameter. -/
def Mode.ofDigit (param digit : Nat) : Except DecodeError Mode :=
  match ofDigit? digit with
  | some mode => .ok mode
  | none => .error (.invalidMode param digit)

/-- A decoded instruction word. -/
structure Instruction where
  opcode : Opcode
  first : Mode
  second : Mode
  third : Mode
  deriving DecidableEq

namespace Instruction

/-- The modes in parameter order. -/
def modes (i : Instruction) : List Mode :=
  [i.first, i.second, i.third]

/-- The number of words that the instruction takes up in memory. -/
def width (i : Instruction) : Nat :=
  i.opcode.arity + 1

/-- The word of an instruction. -/
def encode (i : Instruction) : Word :=
  i.opcode.code + 100 * i.first.digit + 1000 * i.second.digit + 10000 * i.third.digit

/-- Reads the digits of a word from the lowest up. -/
def ofDigits (word : Word) (n : Nat) : Except DecodeError Instruction := do
  let opcode ← Opcode.ofCode (n % 100)
  let first ← Mode.ofDigit 1 (n / 100 % 10)
  let second ← Mode.ofDigit 2 (n / 1000 % 10)
  let third ← Mode.ofDigit 3 (n / 10000 % 10)
  if n / 100000 = 0 then
    return { opcode, first, second, third }
  else
    throw (.excessModeDigits word)

/-- The instruction of a word. The sign is looked at first, then whether the word fits into 64 bits,
then its digits from the lowest up. -/
def decode (word : Word) : Except DecodeError Instruction :=
  if word < 0 then .error (.negativeWord word)
  else if 0x10000000000000000 ≤ word then .error (.excessModeDigits word)
  else ofDigits word word.toNat

/-- The line of a listing: the mnemonic and the operands. There are no more operands on it than the
opcode has parameters, and an operand that is not given is left out. -/
def render (i : Instruction) (operands : List Word) : String :=
  match List.zipWith Mode.render operands (i.modes.take i.opcode.arity) with
  | [] => i.opcode.mnemonic
  | shown => i.opcode.mnemonic ++ " " ++ ", ".intercalate shown

end Instruction

end Intcode
