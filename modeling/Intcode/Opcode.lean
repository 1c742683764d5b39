/-!
# Opcodes

The ten operations of an Intcode machine. An opcode knows its number in an instruction word, its
mnemonic in a listing, how many parameters follow it, and which of them is the address of a result.
-/

namespace Intcode

/-- An operation of the machine. -/
inductive Opcode where
  | add
  | mul
  | input
  | output
  | jumpIfTrue
  | jumpIfFalse
  | lessThan
  | equals
  | adjustBase
  | halt
  deriving DecidableEq

namespace Opcode

/-- The number that stands for the operation in the two lowest digits of an instruction word. -/
def code : Opcode → Nat
  | add => 1
  | mul => 2
  | input => 3
  | output => 4
  | jumpIfTrue => 5
  | jumpIfFalse => 6
  | lessThan => 7
  | equals => 8
  | adjustBase => 9
  | halt => 99

/-- The operation with a given number, if there is one. -/
def ofCode? : Nat → Option Opcode
  | 1 => some add
  | 2 => some mul
  | 3 => some input
  | 4 => some output
  | 5 => some jumpIfTrue
  | 6 => some jumpIfFalse
  | 7 => some lessThan
  | 8 => some equals
  | 9 => some adjustBase
  | 99 => some halt
  | _ => none

/-- The name of the operation in a listing. -/
def mnemonic : Opcode → String
  | add => "ADD"
  | mul => "MUL"
  | input => "IN"
  | output => "OUT"
  | jumpIfTrue => "JNZ"
  | jumpIfFalse => "JZ"
  | lessThan => "LT"
  | equals => "EQ"
  | adjustBase => "ARB"
  | halt => "HALT"

/-- The number of parameters. -/
def arity : Opcode → Nat
  | add | mul | lessThan | equals => 3
  | jumpIfTrue | jumpIfFalse => 2
  | input | output | adjustBase => 1
  | halt => 0

/-- The parameter, counted from zero, that is the address of a result. -/
def resultParameter? : Opcode → Option Nat
  | add | mul | lessThan | equals => some 2
  | input => some 0
  | output | jumpIfTrue | jumpIfFalse | adjustBase | halt => none

@[simp] theorem ofCode?_code (op : Opcode) : ofCode? op.code = some op := by
  cases op <;> rfl

/-- A number names at most one operation, the one whose number it is. -/
theorem ofCode?_eq_some_iff {n : Nat} {op : Opcode} : ofCode? n = some op ↔ n = op.code := by
  constructor
  · intro h
    unfold ofCode? at h
    split at h <;> cases h <;> rfl
  · rintro rfl
    exact ofCode?_code op

/-- Every number of an operation has at most two digits. -/
theorem code_lt (op : Opcode) : op.code < 100 := by
  cases op <;> decide

end Opcode

end Intcode
