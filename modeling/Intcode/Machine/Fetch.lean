import Intcode.Machine.Basic

/-!
# Resolving an instruction

Before an instruction changes anything, its word is read and decoded, its operands are read in
order, each leading to a value or to an address as its mode says, and any of this can fault. All of it
only looks at memory. So an instruction is first resolved, by a computation that reads cells and
does nothing else, into an `Effect`; the effect is what is left to be done.

## Contents

* `Fetch`, a tree of reads: each inner node asks for the word at an address and goes on with it. It
  can be evaluated over any function from addresses to words (`Fetch.eval`), and over a memory, whose
  cells it touches on the way, even when it ends in a fault (`Fetch.run`).
* `Context.plan`, the tree of one instruction. It depends on the instruction pointer, the relative
  base and the availability of relative addressing, and on memory only through what it reads.
-/

namespace Intcode

/-- A computation that reads cells one after the other and then answers or faults. -/
inductive Fetch (α : Type) where
  | done (answer : α)
  | fault (cause : Fault.Cause)
  | read (address : Word) (next : Word → Fetch α)

namespace Fetch

/-- Goes on after an answer. -/
def bind {α β : Type} : Fetch α → (α → Fetch β) → Fetch β
  | done answer, f => f answer
  | fault cause, _ => fault cause
  | read address next, f => read address fun word => (next word).bind f

instance : Monad Fetch where
  pure := done
  bind := bind

/-- The word at an address. -/
def cell (address : Word) : Fetch Word :=
  read address done

/-- What the computation comes to over given contents of all addresses. -/
def eval {α : Type} (contents : Word → Word) : Fetch α → Except Fault.Cause α
  | done answer => .ok answer
  | fault cause => .error cause
  | read address next => (next (contents address)).eval contents

/-- Carries the computation out in a memory, touching what it reads. -/
def run {α : Type} : Fetch α → Memory → Except Fault.Cause α × Memory
  | done answer, m => (.ok answer, m)
  | fault cause, m => (.error cause, m)
  | read address next, m =>
    let (word, m) := m.read address
    (next word).run m

/-- Touching cells does not change what is read, so a run answers what evaluation answers. -/
theorem run_fst {α : Type} (f : Fetch α) (m : Memory) : (f.run m).1 = f.eval m.get := by
  induction f generalizing m with
  | done => rfl
  | fault => rfl
  | read address next ih =>
    have h : (m.touch address).get = m.get := funext (Memory.get_touch m address)
    simp [run, eval, Memory.read, ih, h]

/-- No run changes what a memory holds. -/
theorem get_run {α : Type} (f : Fetch α) (m : Memory) (a : Word) : (f.run m).2.get a = m.get a := by
  induction f generalizing m with
  | done => rfl
  | fault => rfl
  | read address next ih => simp [run, Memory.read, ih]

end Fetch

/-- What is left to be done once an instruction is resolved. -/
inductive Effect where
  /-- Store a word and go on. -/
  | store (target value : Word)
  /-- Store the next input word and go on. -/
  | input (target : Word)
  /-- Put a word into the output slot and go on. -/
  | output (value : Word)
  /-- Continue somewhere else. -/
  | jump (destination : Word)
  /-- Go on. -/
  | pass
  /-- Move the relative base and go on. -/
  | rebase (base : Word)
  /-- End the program. -/
  | halt
  deriving DecidableEq

/-- What resolving an instruction depends on besides memory. -/
structure Context where
  ip : Word
  base : Word
  relative : Bool

namespace Context

/-- An address, which must not be negative. -/
def address (a : Word) : Fetch Word :=
  if a < 0 then .fault (.negativeAddress a) else .done a

/-- The address at a distance from the relative base. -/
def relativeAddress (c : Context) (offset : Word) : Fetch Word :=
  if c.relative then address (c.base + offset) else .fault .relativeModeDisabled

/-- The operand word of a parameter; parameters count from one. -/
def operand (c : Context) (param : Nat) : Fetch Word :=
  .cell (c.ip + param)

/-- The value of a parameter. -/
def load (c : Context) (mode : Mode) (param : Nat) : Fetch Word := do
  let word ← c.operand param
  match mode with
  | .immediate => return word
  | .position => Fetch.cell (← address word)
  | .relative => Fetch.cell (← c.relativeAddress word)

/-- The address that a parameter names as the place of a result. -/
def target (c : Context) (mode : Mode) (param : Nat) : Fetch Word := do
  let word ← c.operand param
  match mode with
  | .immediate => .fault (.immediateWrite param)
  | .position => address word
  | .relative => c.relativeAddress word

/-- An instruction that stores a function of its first two parameters where its third says. -/
def combine (c : Context) (i : Instruction) (f : Word → Word → Word) : Fetch Effect := do
  let a ← c.load i.first 1
  let b ← c.load i.second 2
  let target ← c.target i.third 3
  return .store target (f a b)

/-- An instruction that jumps to its second parameter if its first passes a test. -/
def branch (c : Context) (i : Instruction) (taken : Word → Bool) : Fetch Effect := do
  let a ← c.load i.first 1
  let destination ← c.load i.second 2
  return if taken a then .jump destination else .pass

/-- Resolves the parameters of a decoded instruction. -/
def resolve (c : Context) (i : Instruction) : Fetch Effect :=
  match i.opcode with
  | .add => c.combine i fun a b => a + b
  | .mul => c.combine i fun a b => a * b
  | .lessThan => c.combine i fun a b => if a < b then 1 else 0
  | .equals => c.combine i fun a b => if a = b then 1 else 0
  | .jumpIfTrue => c.branch i fun a => a != 0
  | .jumpIfFalse => c.branch i fun a => a == 0
  | .input => do return .input (← c.target i.first 1)
  | .output => do return .output (← c.load i.first 1)
  | .adjustBase =>
    if c.relative then do return .rebase (c.base + (← c.load i.first 1))
    else .fault .relativeModeDisabled
  | .halt => return .halt

/-- Reads and decodes the word at the instruction pointer. -/
def instruction (c : Context) : Fetch Instruction := do
  let word ← Fetch.cell (← address c.ip)
  match Instruction.decode word with
  | .ok i => return i
  | .error e => .fault (.ofDecodeError e)

/-- The next instruction and its effect. -/
def plan (c : Context) : Fetch (Instruction × Effect) := do
  let i ← c.instruction
  return (i, ← c.resolve i)

end Context

end Intcode
