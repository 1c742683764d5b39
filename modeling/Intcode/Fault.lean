import Intcode.Instruction

/-!
# Faults

An instruction that cannot be carried out stops its machine for good. A fault records why, and the
address of the instruction.
-/

namespace Intcode

/-- Why an instruction cannot be carried out. Parameters count from one. -/
inductive Fault.Cause where
  | unknownOpcode (code : Nat)
  | invalidMode (param mode : Nat)
  | malformedInstruction (word : Word)
  | immediateWrite (param : Nat)
  | negativeAddress (address : Word)
  | overflow (value : Word)
  | relativeModeDisabled
  deriving DecidableEq

/-- A cause, and the address of the instruction. -/
structure Fault where
  cause : Fault.Cause
  site : Word
  deriving DecidableEq

namespace Fault

/-- A word that does not decode faults for the reason for which it does not decode; a sign and
digits in excess are both a malformed word. -/
def Cause.ofDecodeError : DecodeError → Cause
  | .unknownOpcode code => unknownOpcode code
  | .invalidMode param mode => invalidMode param mode
  | .negativeWord word => malformedInstruction word
  | .excessModeDigits word => malformedInstruction word

/-- The wording of a fault. -/
def message (fault : Fault) : String :=
  let site := Word.text fault.site
  match fault.cause with
  | .unknownOpcode code => s!"unknown opcode {code} at address {site}"
  | .invalidMode param mode =>
    s!"invalid addressing mode {mode} for parameter {param} at address {site}"
  | .malformedInstruction word =>
    "malformed instruction word " ++ Word.text word ++ " at address " ++ site
  | .immediateWrite param => s!"write to immediate-mode parameter {param} at address {site}"
  | .negativeAddress address =>
    "negative address " ++ Word.text address ++ " at address " ++ site
  | .overflow value =>
    "value " ++ Word.text value ++ " exceeds the 64-bit word width at address " ++ site
  | .relativeModeDisabled => "relative addressing is disabled (address " ++ site ++ ")"

end Fault

end Intcode
