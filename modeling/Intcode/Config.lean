import Intcode.Word

/-!
# Machine configuration

Two capabilities of a machine can be restricted: the width of the words that it computes with, and
addressing relative to a base.
-/

namespace Intcode

/-- How wide a computed word may be. -/
inductive WordWidth where
  | unbounded
  | bits64
  deriving DecidableEq

/-- Whether a word fits. Sixty-four bits hold the integers from minus two to the 63rd power up to
below two to the 63rd power. -/
def WordWidth.fits : WordWidth → Word → Bool
  | unbounded, _ => true
  | bits64, word => -0x8000000000000000 ≤ word && word < 0x8000000000000000

/-- The capabilities of a machine; by default there is no restriction. -/
structure Config where
  width : WordWidth := .unbounded
  relative : Bool := true
  deriving DecidableEq

end Intcode
