import Intcode.Machine.Step

/-!
# Running

A run executes instructions until one of them leaves the machine in another status than `running`:
it has put out a word, found no input, halted or faulted. Draining goes on over outputs and collects
them.

Programs need not come to rest, so both take a bound on the number of instructions and answer `none`
when it is used up. A larger bound never changes an answer.
-/

namespace Intcode

namespace Machine

/-- Executes until something happens, with a source of input behind the queue. -/
def runWith {σ : Type} (ask : σ → Option Word × σ) : Nat → Machine → σ → Option (Machine × σ)
  | 0, _, _ => none
  | fuel + 1, m, s =>
    let (m, s) := m.stepWith ask s
    if m.status = .running then runWith ask fuel m s else some (m, s)

/-- Executes until something happens. -/
def run (fuel : Nat) (m : Machine) : Option Machine :=
  (m.runWith noSource fuel ()).map fun (m, _) => m

/-- Executes until the machine comes to rest, adding the words it puts out in front of `outputs`,
with a source of input behind the queue. -/
def drainOnto {σ : Type} (ask : σ → Option Word × σ) (outputs : List Word) :
    Nat → Machine → σ → Option (List Word × Machine × σ)
  | 0, _, _ => none
  | fuel + 1, m, s =>
    let (m, s) := m.stepWith ask s
    match m.status with
    | .running => drainOnto ask outputs fuel m s
    | .output => drainOnto ask (m.slot.toList ++ outputs) fuel m s
    | .awaitingInput | .halted | .faulted _ => some (outputs, m, s)

/-- Executes until the machine comes to rest and collects the words it puts out, with a source of
input behind the queue. -/
def drainWith {σ : Type} (ask : σ → Option Word × σ) (fuel : Nat) (m : Machine) (s : σ) :
    Option (List Word × Machine × σ) :=
  (drainOnto ask [] fuel m s).map fun (outputs, rest) => (outputs.reverse, rest)

/-- Executes until the machine comes to rest and collects the words it puts out. -/
def drain (fuel : Nat) (m : Machine) : Option (List Word × Machine) :=
  (m.drainWith noSource fuel ()).map fun (outputs, m, _) => (outputs, m)

end Machine

/-- Runs a program on given inputs until it comes to rest: its outputs, and the machine it leaves. -/
def Program.run (program : Program) (inputs : List Word) (fuel : Nat) :
    Option (List Word × Machine) :=
  ((Machine.ofProgram program {}).extend inputs).drain fuel

end Intcode
