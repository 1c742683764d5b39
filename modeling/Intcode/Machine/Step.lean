import Intcode.Machine.Fetch

/-!
# One instruction

A step resolves the next instruction and carries out its effect. A word that is stored, be it
computed or taken from the input, and a new relative base have to fit into the machine's words;
outputs, literals and addresses are not held to that. A faulting instruction leaves the instruction
pointer, the relative base and the output slot alone.

## Input

An input instruction takes the first word of the queue. When the queue is empty it consults a
*source*: a function `ask` that yields a word, or nothing, and the state in which the source is then.
`Machine.stepWith` threads that state through a step; `Machine.step` is the step of a machine that
has nothing but its queue, which is the source that never yields anything.
-/

namespace Intcode.Machine

/-- The part of a machine that resolving an instruction depends on. -/
def context (m : Machine) : Context where
  ip := m.ip
  base := m.base
  relative := m.config.relative

/-- Stops the machine with a fault at the current instruction. -/
def fail (m : Machine) (cause : Fault.Cause) : Machine :=
  { m with status := .faulted ⟨cause, m.ip⟩ }

/-- Goes on behind an instruction of the given width. -/
def advance (m : Machine) (width : Nat) : Machine :=
  { m with ip := m.ip + width, status := .running }

/-- Stores a word that fits, and goes on. -/
def store (m : Machine) (target value : Word) (width : Nat) : Machine :=
  if m.config.width.fits value then { m with memory := m.memory.write target value }.advance width
  else m.fail (.overflow value)

/-- Moves the relative base to a word that fits, and goes on. -/
def rebase (m : Machine) (base : Word) (width : Nat) : Machine :=
  if m.config.width.fits base then { m with base }.advance width
  else m.fail (.overflow base)

/-- The next input word, from the queue if there is one there and else from the source. -/
def nextInput {σ : Type} (ask : σ → Option Word × σ) (m : Machine) (s : σ) :
    Option Word × Machine × σ :=
  match m.queue with
  | word :: queue => (some word, { m with queue }, s)
  | [] =>
    let (word, s) := ask s
    (word, m, s)

/-- Carries out the effect of an instruction of the given width. -/
def commit {σ : Type} (ask : σ → Option Word × σ) (m : Machine) (s : σ) (width : Nat) :
    Effect → Machine × σ
  | .store target value => (m.store target value width, s)
  | .input target =>
    match m.nextInput ask s with
    | (some word, m, s) => (m.store target word width, s)
    | (none, m, s) => ({ m with status := .awaitingInput }, s)
  | .output value => ({ m.advance width with slot := some value, status := .output }, s)
  | .jump destination => ({ m with ip := destination, status := .running }, s)
  | .pass => (m.advance width, s)
  | .rebase base => (m.rebase base width, s)
  | .halt => ({ m with status := .halted }, s)

/-- Executes one instruction, with a source of input behind the queue. A machine whose execution is
over stays as it is. -/
def stepWith {σ : Type} (ask : σ → Option Word × σ) (m : Machine) (s : σ) : Machine × σ :=
  if m.isOver then (m, s)
  else
    match m.context.plan.run m.memory with
    | (.error cause, memory) => ({ m with memory }.fail cause, s)
    | (.ok (i, effect), memory) => { m with memory }.commit ask s i.width effect

/-- The source of a machine that has nothing but its queue. -/
def noSource : Unit → Option Word × Unit :=
  fun s => (none, s)

/-- Executes one instruction with the input that is queued. -/
def step (m : Machine) : Machine :=
  (m.stepWith noSource ()).1

end Intcode.Machine
