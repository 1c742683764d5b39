import Mathlib.Logic.Function.Iterate
import Intcode.Proofs.Machine.Step

/-!
# The ideal machine

An ideal machine is what a program can see of a machine: its memory is a function that holds a word at
every address, and no cell is told from another by having been touched. `Ideal.step` is written from
the table of operations, one row an opcode. Each row is a sequence of checks, and the first that
fails is the fault.

## Main statements

* `ideal_stepWith`: what a program sees of a step is the step of what it sees.
* `stepWith_refines_ideal`: so machines that look the same go on looking the same for as long as they
  run, whichever cells each of them has touched.
-/

namespace Intcode

/-- A machine whose memory is a function that holds a word at every address. -/
structure Ideal where
  cells : Word → Word
  ip : Word
  base : Word
  queue : List Word
  slot : Option Word
  status : Machine.Status
  config : Config

namespace Ideal

variable {σ : Type}

/-! ## Parameters -/

/-- An address, which must not be negative. -/
def inMemory (a : Word) : Except Fault.Cause Word :=
  if a < 0 then throw (.negativeAddress a) else pure a

/-- The address that a parameter leads to; parameters count from one. An immediate one leads to no
address at all. -/
def address (m : Ideal) (mode : Mode) (param : Nat) : Except Fault.Cause Word :=
  match mode with
  | .immediate => throw (.immediateWrite param)
  | .position => inMemory (m.cells (m.ip + param))
  | .relative =>
    if m.config.relative then inMemory (m.base + m.cells (m.ip + param))
    else throw .relativeModeDisabled

/-- The value of a parameter: the parameter itself if it is immediate, else the word at its
address. -/
def value (m : Ideal) (mode : Mode) (param : Nat) : Except Fault.Cause Word :=
  match mode with
  | .immediate => pure (m.cells (m.ip + param))
  | .position | .relative => do return m.cells (← m.address mode param)

/-! ## Outcomes -/

/-- Stops with a fault at the current instruction. -/
def fail (m : Ideal) (cause : Fault.Cause) : Ideal :=
  { m with status := .faulted ⟨cause, m.ip⟩ }

/-- Goes on a number of words further. -/
def skip (m : Ideal) (words : Nat) : Ideal :=
  { m with ip := m.ip + words, status := .running }

/-- Replaces the word at one address. -/
def write (m : Ideal) (target value : Word) : Ideal :=
  { m with cells := fun a => if a = target then value else m.cells a }

/-- Stores a word, should it fit, and goes on. -/
def store (m : Ideal) (target value : Word) (words : Nat) : Ideal :=
  if m.config.width.fits value then (m.write target value).skip words else m.fail (.overflow value)

/-- Moves the relative base, should the new one fit, and goes on. -/
def rebase (m : Ideal) (base : Word) (words : Nat) : Ideal :=
  if m.config.width.fits base then { m with base }.skip words else m.fail (.overflow base)

/-- Stores a function of the first two parameters at the address of the third. -/
def combine (m : Ideal) (i : Instruction) (f : Word → Word → Word) : Except Fault.Cause Ideal := do
  let a ← m.value i.first 1
  let b ← m.value i.second 2
  let target ← m.address i.third 3
  return m.store target (f a b) 4

/-- Continues at the second parameter if the first passes a test, and else behind the instruction. -/
def branch (m : Ideal) (i : Instruction) (taken : Word → Prop) [DecidablePred taken] :
    Except Fault.Cause Ideal := do
  let a ← m.value i.first 1
  let destination ← m.value i.second 2
  return if taken a then { m with ip := destination, status := .running } else m.skip 3

/-- Takes the next input word, from the queue or else from the source, and stores it. Without one, the
instruction is left to be executed again. -/
def accept (ask : σ → Option Word × σ) (m : Ideal) (s : σ) (target : Word) : Ideal × σ :=
  match m.queue, ask s with
  | word :: queue, _ => ({ m with queue }.store target word 2, s)
  | [], (some word, s) => (m.store target word 2, s)
  | [], (none, s) => ({ m with status := .awaitingInput }, s)

/-! ## The table of operations -/

/-- Executes a decoded instruction. -/
def execute (ask : σ → Option Word × σ) (m : Ideal) (s : σ) (i : Instruction) :
    Except Fault.Cause (Ideal × σ) :=
  match i.opcode with
  | .add => do return (← m.combine i fun a b => a + b, s)
  | .mul => do return (← m.combine i fun a b => a * b, s)
  | .lessThan => do return (← m.combine i fun a b => if a < b then 1 else 0, s)
  | .equals => do return (← m.combine i fun a b => if a = b then 1 else 0, s)
  | .jumpIfTrue => do return (← m.branch i fun a => a ≠ 0, s)
  | .jumpIfFalse => do return (← m.branch i fun a => a = 0, s)
  | .input => do return m.accept ask s (← m.address i.first 1)
  | .output => do
    let value ← m.value i.first 1
    return ({ m.skip 2 with slot := some value, status := .output }, s)
  | .adjustBase =>
    if m.config.relative then do return (m.rebase (m.base + (← m.value i.first 1)) 2, s)
    else throw .relativeModeDisabled
  | .halt => return ({ m with status := .halted }, s)

/-- Reads, decodes and executes the instruction at the instruction pointer. -/
def cycle (ask : σ → Option Word × σ) (m : Ideal) (s : σ) : Except Fault.Cause (Ideal × σ) := do
  match Instruction.decode (m.cells (← inMemory m.ip)) with
  | .ok i => m.execute ask s i
  | .error (.unknownOpcode code) => throw (.unknownOpcode code)
  | .error (.invalidMode param mode) => throw (.invalidMode param mode)
  | .error (.negativeWord word) | .error (.excessModeDigits word) =>
    throw (.malformedInstruction word)

/-- One instruction. A machine that has halted or faulted stays as it is. -/
def step (ask : σ → Option Word × σ) (m : Ideal) (s : σ) : Ideal × σ :=
  match m.status, m.cycle ask s with
  | .halted, _ | .faulted _, _ => (m, s)
  | _, .ok next => next
  | _, .error cause => (m.fail cause, s)

end Ideal

namespace Machine

variable {σ : Type}

/-- What a program can see of a machine. -/
def ideal (m : Machine) : Ideal where
  cells := m.memory.get
  ip := m.ip
  base := m.base
  queue := m.queue
  slot := m.slot
  status := m.status
  config := m.config

/-! ## Resolving, seen ideally -/

/-- Which cells are touched is not seen. -/
theorem ideal_fetched (m : Machine) : m.fetched.ideal = m.ideal := by
  have hget : m.fetched.memory.get = m.memory.get := funext m.get_fetched
  simp only [ideal, hget, fetched_ip, fetched_base, fetched_queue, fetched_slot, fetched_status,
    fetched_config]

theorem eval_address (contents : Word → Word) (a : Word) :
    (Context.address a).eval contents = Ideal.inMemory a := by
  rw [Context.address, Ideal.inMemory]
  split <;> rfl

theorem eval_relativeAddress (m : Machine) (contents : Word → Word) (offset : Word) :
    (m.context.relativeAddress offset).eval contents =
      if m.config.relative then Ideal.inMemory (m.base + offset)
      else throw .relativeModeDisabled := by
  show Fetch.eval _ (if m.config.relative then _ else _) = _
  split
  · exact eval_address _ _
  · rfl

/-- Resolving the place of a result is following its parameter. -/
theorem eval_target (m : Machine) (mode : Mode) (param : Nat) :
    (m.context.target mode param).eval m.memory.get = m.ideal.address mode param := by
  cases mode with
  | immediate => rfl
  | position => exact eval_address _ _
  | relative => exact eval_relativeAddress _ _ _

/-- Loading a parameter is following it to its value. -/
theorem eval_load (m : Machine) (mode : Mode) (param : Nat) :
    (m.context.load mode param).eval m.memory.get = m.ideal.value mode param := by
  cases mode with
  | immediate => rfl
  | position =>
    simp only [Context.load, Context.operand, Fetch.eval_bind, Fetch.eval_cell, pure_bind,
      eval_address, Ideal.value, Ideal.address]
    rfl
  | relative =>
    simp only [Context.load, Context.operand, Fetch.eval_bind, Fetch.eval_cell, pure_bind,
      eval_relativeAddress, Ideal.value, Ideal.address]
    rfl

/-! ## Committing, seen ideally -/

theorem ideal_store (m : Machine) (target value : Word) (width : Nat) :
    (m.store target value width).ideal = m.ideal.store target value width := by
  have hwrite : (m.memory.write target value).get = (m.ideal.write target value).cells := by
    funext a
    rw [Memory.get_write, Ideal.write]
    exact ite_congr (propext eq_comm) (fun _ => rfl) fun _ => rfl
  rw [store, Ideal.store]
  show _ = if m.config.width.fits value then _ else _
  split
  · simp only [ideal, advance, hwrite]
    rfl
  · rfl

theorem ideal_rebase (m : Machine) (base : Word) (width : Nat) :
    (m.rebase base width).ideal = m.ideal.rebase base width := by
  rw [rebase, Ideal.rebase]
  show _ = if m.config.width.fits base then _ else _
  split <;> rfl

/-- Storing the next input word is accepting it. -/
theorem ideal_commit_input (ask : σ → Option Word × σ) (m : Machine) (s : σ) (target : Word) :
    Prod.map ideal id (m.commit ask s 2 (.input target)) = m.ideal.accept ask s target := by
  have hqueue : m.ideal.queue = m.queue := rfl
  cases hq : m.queue with
  | cons word queue =>
    simp only [commit, nextInput, Ideal.accept, hqueue, hq, Prod.map, ideal_store, id_eq]
    rfl
  | nil =>
    rcases ha : ask s with ⟨_ | word, s'⟩
    · simp only [commit, nextInput, Ideal.accept, hq, ha, Prod.map, id_eq, ideal]
    · simp only [commit, nextInput, Ideal.accept, hqueue, hq, ha, Prod.map, ideal_store, id_eq]

/-- The outcome of an effect as a program sees it. -/
private def seen (ask : σ → Option Word × σ) (m : Machine) (s : σ) (width : Nat)
    (effect : Effect) : Except Fault.Cause (Ideal × σ) :=
  pure (Prod.map ideal id (m.commit ask s width effect))

private theorem seen_combine (ask : σ → Option Word × σ) (m : Machine) (s : σ) (i : Instruction)
    (f : Word → Word → Word) :
    ((m.context.combine i f).eval m.memory.get >>= seen ask m s 4) =
      do return (← m.ideal.combine i f, s) := by
  simp only [Context.combine, Ideal.combine, Fetch.eval_bind, eval_load, eval_target,
    Fetch.eval_pure, bind_assoc, pure_bind, seen, commit, Prod.map, ideal_store, id_eq]

private theorem seen_branch (ask : σ → Option Word × σ) (m : Machine) (s : σ) (i : Instruction)
    (test : Word → Bool) (taken : Word → Prop) [DecidablePred taken]
    (h : ∀ a, test a = decide (taken a)) :
    ((m.context.branch i test).eval m.memory.get >>= seen ask m s 3) =
      do return (← m.ideal.branch i taken, s) := by
  simp only [Context.branch, Ideal.branch, Fetch.eval_bind, eval_load, Fetch.eval_pure, bind_assoc,
    pure_bind]
  refine bind_congr fun a => bind_congr fun destination => ?_
  by_cases ht : taken a
  · rw [h, decide_eq_true ht, if_pos rfl, if_pos ht]
    rfl
  · rw [h, decide_eq_false ht, if_neg Bool.false_ne_true, if_neg ht]
    rfl

private theorem seen_resolve (ask : σ → Option Word × σ) (m : Machine) (s : σ) (i : Instruction) :
    ((m.context.resolve i).eval m.memory.get >>= seen ask m s i.width) =
      m.ideal.execute ask s i := by
  obtain ⟨opcode, first, second, third⟩ := i
  cases opcode with
  | add => exact seen_combine ask m s _ _
  | mul => exact seen_combine ask m s _ _
  | lessThan => exact seen_combine ask m s _ _
  | equals => exact seen_combine ask m s _ _
  | jumpIfTrue => exact seen_branch ask m s _ _ _ fun a => (decide_not (p := a = 0)).symm
  | jumpIfFalse => exact seen_branch ask m s _ _ _ fun _ => rfl
  | input =>
    simp only [Context.resolve, Ideal.execute, Fetch.eval_bind, eval_target, Fetch.eval_pure,
      bind_assoc, pure_bind]
    exact bind_congr fun target => congrArg pure (ideal_commit_input ask m s target)
  | output =>
    simp only [Context.resolve, Ideal.execute, Fetch.eval_bind, eval_load, Fetch.eval_pure,
      bind_assoc, pure_bind]
    rfl
  | adjustBase =>
    have hrelative : m.context.relative = m.ideal.config.relative := rfl
    simp only [Context.resolve, Ideal.execute, hrelative]
    split
    · simp only [Fetch.eval_bind, eval_load, Fetch.eval_pure, bind_assoc, pure_bind]
      exact bind_congr fun delta => congrArg (fun m => pure (m, s)) (ideal_rebase m _ 2)
    · rfl
  | halt => rfl

/-! ## Steps, seen ideally -/

/-- Reading, decoding and executing the next instruction, seen ideally. -/
private theorem seen_resolved (ask : σ → Option Word × σ) (m : Machine) (s : σ) :
    (m.resolved >>= fun (i, effect) => seen ask m s i.width effect) = m.ideal.cycle ask s := by
  rw [resolved, Context.plan, Ideal.cycle, Context.instruction]
  simp only [Fetch.eval_bind, Fetch.eval_pure, Fetch.eval_cell, eval_address, bind_assoc, pure_bind]
  refine bind_congr fun a => ?_
  have hcells : m.ideal.cells a = m.memory.get a := rfl
  rw [hcells]
  cases Instruction.decode (m.memory.get a) with
  | error e => cases e <;> rfl
  | ok i => exact seen_resolve ask m s i

/-- What a program sees of a step is the step of what it sees. -/
theorem ideal_stepWith (ask : σ → Option Word × σ) (m : Machine) (s : σ) :
    Prod.map ideal id (m.stepWith ask s) = m.ideal.step ask s := by
  -- reads come first in a step, and as they are not seen they may count as done
  have hcycle := seen_resolved ask m.fetched s
  rw [resolved_fetched, ideal_fetched] at hcycle
  have hstatus : m.ideal.status = m.status := rfl
  cases hover : m.isOver with
  | true =>
    rw [stepWith_of_isOver hover, Ideal.step, hstatus]
    cases hs : m.status <;> simp_all [isOver]
  | false =>
    rw [stepWith_eq hover, Ideal.step, hstatus, ← hcycle]
    rcases m.resolved with cause | ⟨i, effect⟩
    · have hfail : (m.fetched.fail cause).ideal = m.ideal.fail cause :=
        congrArg (Ideal.fail · cause) m.ideal_fetched
      rcases status_of_not_isOver hover with hs | hs | hs <;> rw [hs] <;> exact Prod.ext hfail rfl
    · rcases status_of_not_isOver hover with hs | hs | hs <;> rw [hs] <;> rfl

/-! ## Touched cells are not seen -/

/-- Machines that differ at most in which cells they have touched. -/
structure Similar (m n : Machine) : Prop where
  get_eq : ∀ a, m.memory.get a = n.memory.get a
  ip_eq : m.ip = n.ip
  base_eq : m.base = n.base
  queue_eq : m.queue = n.queue
  slot_eq : m.slot = n.slot
  status_eq : m.status = n.status
  config_eq : m.config = n.config

/-- Machines are similar exactly if they look the same. -/
theorem similar_iff_ideal_eq {m n : Machine} : m.Similar n ↔ m.ideal = n.ideal := by
  constructor
  · rintro ⟨hget, hip, hbase, hqueue, hslot, hstatus, hconfig⟩
    rw [ideal, ideal, funext hget, hip, hbase, hqueue, hslot, hstatus, hconfig]
  · intro h
    refine ⟨fun a => congrFun (congrArg Ideal.cells h) a, ?_, ?_, ?_, ?_, ?_, ?_⟩
    · exact congrArg Ideal.ip h
    · exact congrArg Ideal.base h
    · exact congrArg Ideal.queue h
    · exact congrArg Ideal.slot h
    · exact congrArg Ideal.status h
    · exact congrArg Ideal.config h

/-- A number of steps, with a source of input behind the queue. -/
def stepsWith (ask : σ → Option Word × σ) : Nat → Machine → σ → Machine × σ
  | 0, m, s => (m, s)
  | k + 1, m, s => stepsWith ask k (m.stepWith ask s).1 (m.stepWith ask s).2

/-- Similar machines with the same source take similar steps and leave the source the same. -/
theorem Similar.stepWith {m n : Machine} (h : m.Similar n) (ask : σ → Option Word × σ) (s : σ) :
    (m.stepWith ask s).1.Similar (n.stepWith ask s).1 ∧
      (m.stepWith ask s).2 = (n.stepWith ask s).2 := by
  have hm := ideal_stepWith ask m s
  have hn := ideal_stepWith ask n s
  rw [similar_iff_ideal_eq.mp h, ← hn] at hm
  exact ⟨similar_iff_ideal_eq.mpr (Prod.ext_iff.mp hm).1, (Prod.ext_iff.mp hm).2⟩

/-- Similar machines stay similar. -/
theorem Similar.stepsWith {m n : Machine} (h : m.Similar n) (ask : σ → Option Word × σ) (k : Nat)
    (s : σ) :
    (m.stepsWith ask k s).1.Similar (n.stepsWith ask k s).1 ∧
      (m.stepsWith ask k s).2 = (n.stepsWith ask k s).2 := by
  induction k generalizing m n s with
  | zero => exact ⟨h, rfl⟩
  | succ k ih =>
    obtain ⟨hstep, hsource⟩ := h.stepWith ask s
    rw [Machine.stepsWith, Machine.stepsWith, hsource]
    exact ih hstep _

/-- **Steps are those of the ideal machine.** One step of any machine, with any source of input, is
seen as one step of the ideal machine whose memory is the total function `m.memory.get`. Hence machines
that differ only in which cells they have touched answer alike to every number of steps, consult the
source alike, and go on differing in nothing else. -/
theorem stepWith_refines_ideal {σ : Type} (ask : σ → Option Word × σ) :
    (∀ (m : Machine) (s : σ), Prod.map ideal id (m.stepWith ask s) = m.ideal.step ask s) ∧
      ∀ (m n : Machine) (s : σ), m.Similar n → ∀ k : Nat,
        (m.stepsWith ask k s).1.status = (n.stepsWith ask k s).1.status ∧
          (m.stepsWith ask k s).1.Similar (n.stepsWith ask k s).1 ∧
          (m.stepsWith ask k s).2 = (n.stepsWith ask k s).2 := by
  refine ⟨ideal_stepWith ask, fun m n s h k => ?_⟩
  obtain ⟨hsimilar, hsource⟩ := h.stepsWith ask k s
  exact ⟨hsimilar.status_eq, hsimilar, hsource⟩

/-- A machine and its copy in which the cell at 60 was touched beforehand: both read a word from the
source, add the zero at 60 to it and put out the sum. -/
theorem stepWith_refines_ideal_touched :
    let ask : Nat → Option Word × Nat := fun calls => (some 7, calls + 1)
    let m := ofProgram ⟨[3, 50, 1, 50, 60, 50, 4, 50, 99]⟩ {}
    let n := { m with memory := m.memory.touch 60 }
    m.Similar n ∧ m.memory.contains 60 = false ∧ n.memory.contains 60 = true ∧
      (n.stepsWith ask 3 0).1.slot = some 7 ∧
      (m.stepsWith ask 3 0).1.status = (n.stepsWith ask 3 0).1.status ∧
      (m.stepsWith ask 3 0).1.Similar (n.stepsWith ask 3 0).1 ∧
      (m.stepsWith ask 3 0).2 = (n.stepsWith ask 3 0).2 := by
  intro ask m n
  have hsimilar : m.Similar n :=
    ⟨fun a => (Memory.get_touch m.memory 60 a).symm, rfl, rfl, rfl, rfl, rfl, rfl⟩
  have huntouched : m.memory.contains 60 = false := by decide
  have htouched : n.memory.contains 60 = true := by decide
  have hslot : (n.stepsWith ask 3 0).1.slot = some 7 := by decide +kernel
  exact ⟨hsimilar, huntouched, htouched, hslot, (stepWith_refines_ideal ask).2 m n 0 hsimilar 3⟩

end Machine

end Intcode
