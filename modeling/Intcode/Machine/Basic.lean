import Intcode.Ascii
import Intcode.Config
import Intcode.Fault
import Intcode.Memory

/-!
# Machines

A machine is a memory with an instruction pointer, a relative base, a queue of input words that
were not read yet and a slot for the last output. It is a value: a copy goes its own way.

What a machine answers to a step or to a run is its status afterwards, and a fault is part of the
status, so a machine that has faulted is exactly one that has a fault to report.
-/

namespace Intcode

/-- Where execution stands. -/
inductive Machine.Status where
  /-- Nothing stands in the way of the next instruction. -/
  | running
  /-- The last instruction put a word into the output slot. -/
  | output
  /-- The next instruction wants input and found none. -/
  | awaitingInput
  /-- The program has ended. -/
  | halted
  /-- An instruction could not be carried out. -/
  | faulted (fault : Fault)
  deriving DecidableEq

/-- A machine in the course of its execution. -/
structure Machine where
  memory : Memory
  /-- The address of the next instruction. -/
  ip : Word
  /-- What relative parameters are counted from. -/
  base : Word
  /-- Input words that were not read yet, the next one first. -/
  queue : List Word
  /-- The last output word, until it is taken. -/
  slot : Option Word
  status : Machine.Status
  config : Config
  deriving DecidableEq

namespace Machine

/-- A machine about to execute the first instruction of a program. -/
def ofProgram (program : Program) (config : Config) : Machine where
  memory := .ofProgram program
  ip := 0
  base := 0
  queue := []
  slot := none
  status := .running
  config := config

/-- Whether execution is over for good. -/
def isOver (m : Machine) : Bool :=
  match m.status with
  | .halted | .faulted _ => true
  | .running | .output | .awaitingInput => false

/-- The fault that stopped the machine. -/
def fault? (m : Machine) : Option Fault :=
  match m.status with
  | .faulted fault => some fault
  | .running | .output | .awaitingInput | .halted => none

/-- Queues input words behind those that wait already. -/
def extend (m : Machine) (words : List Word) : Machine :=
  { m with queue := m.queue ++ words }

/-- Queues one input word. -/
def push (m : Machine) (word : Word) : Machine :=
  m.extend [word]

/-- Queues a line of text. -/
def pushLine (m : Machine) (line : String) : Machine :=
  m.extend (Ascii.encodeLine line)

/-- The word in the output slot, and the machine with its slot empty. -/
def takeOutput (m : Machine) : Option Word × Machine :=
  (m.slot, { m with slot := none })

end Machine

end Intcode
