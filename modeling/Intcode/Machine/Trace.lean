import Intcode.Machine.Basic
import Intcode.Text.Column

/-!
# Watching a machine

The instruction that a machine is about to execute, the line of a trace that shows it, and a summary
of the machine on one line. Looking at a machine touches no cell.
-/

namespace Intcode.Machine

/-- The instruction at the instruction pointer as a listing shows it, if the word there decodes. -/
def currentInstruction? (m : Machine) : Option String :=
  match Instruction.decode (m.memory.get m.ip) with
  | .error _ => none
  | .ok i =>
    let operands := (List.range i.opcode.arity).map fun (k : Nat) => m.memory.get (m.ip + (k + 1))
    some (i.render operands)

/-- The line of a trace for the next instruction: where it is, what it is, and the relative base. -/
def traceLine? (m : Machine) : Option String :=
  m.currentInstruction?.map fun shown =>
    Text.alignRight 6 (Word.text m.ip) ++ "  " ++ shown ++ "  (rb " ++ Word.text m.base ++ ")\n"

/-- The name of a status in a summary. -/
def Status.name : Status → String
  | running => "Running"
  | output => "Output"
  | awaitingInput => "AwaitingInput"
  | halted => "Halted"
  | faulted _ => "Fatal"

/-- The machine on one line. -/
def summary (m : Machine) : String :=
  let slot := match m.slot with
    | some word => "Some(" ++ Word.text word ++ ")"
    | none => "None"
  "Vm \x7b ip: " ++ Word.text m.ip ++ ", relative_base: " ++ Word.text m.base ++
    ", state: " ++ m.status.name ++ s!", pending_inputs: {m.queue.length}, output: " ++ slot ++
    s!", memory_cells: {m.memory.size}, .. \x7d"

end Intcode.Machine
