import Intcode.Machine.Trace
import Intcode.Proofs.Machine.Addresses

/-!
# What is shown is what is executed

A machine shows the instruction that it stands at without touching a cell, and executes it by a
computation of its own, which touches cells as it goes and may change the very words it has read. The
two agree. An instruction is shown exactly if the next step gets as far as to decode one
(`Machine.currentInstruction?_eq_none_iff`); and what is shown are the words that the step performs it
with (`Context.perform`), even if it then faults, finds no input or writes over itself
(`Machine.stepWith_eq_performed`).

An untouched cell holds zero, which is no instruction. So as long as no negative address is touched, no
instruction is shown at one either.
-/

namespace Intcode

/-- Whether a fault is that of an instruction that was never read: its address is negative, or the word
there is none. -/
def Fault.isOfFetch (fault : Fault) : Bool :=
  match fault.cause with
  | .unknownOpcode _ | .invalidMode _ _ | .malformedInstruction _ => true
  | .negativeAddress _ => fault.site < 0
  | .immediateWrite _ | .overflow _ | .relativeModeDisabled => false

namespace Context

variable {contents : Word → Word} {c : Context}

/-! ## Performing an instruction with given operands -/

/-- The value that an operand leads to. -/
def follow (c : Context) (mode : Mode) (operand : Word) : Fetch Word :=
  match mode with
  | .immediate => return operand
  | .position => do Fetch.cell (← address operand)
  | .relative => do Fetch.cell (← c.relativeAddress operand)

/-- The place of a result that an operand names; its parameter counts from one. -/
def place (c : Context) (mode : Mode) (param : Nat) (operand : Word) : Fetch Word :=
  match mode with
  | .immediate => .fault (.immediateWrite param)
  | .position => address operand
  | .relative => c.relativeAddress operand

/-- What an instruction comes to with these operands, wherever they are from. -/
def perform (c : Context) (i : Instruction) (operands : List Word) : Fetch Effect :=
  let first := operands.getD 0 0
  let second := operands.getD 1 0
  let third := operands.getD 2 0
  let combine (f : Word → Word → Word) : Fetch Effect := do
    let a ← c.follow i.first first
    let b ← c.follow i.second second
    let target ← c.place i.third 3 third
    return .store target (f a b)
  let branch (taken : Word → Bool) : Fetch Effect := do
    let a ← c.follow i.first first
    let destination ← c.follow i.second second
    return if taken a then .jump destination else .pass
  match i.opcode with
  | .add => combine fun a b => a + b
  | .mul => combine fun a b => a * b
  | .lessThan => combine fun a b => if a < b then 1 else 0
  | .equals => combine fun a b => if a = b then 1 else 0
  | .jumpIfTrue => branch fun a => a != 0
  | .jumpIfFalse => branch fun a => a == 0
  | .input => do return .input (← c.place i.first 1 first)
  | .output => do return .output (← c.follow i.first first)
  | .adjustBase =>
    if c.relative then do return .rebase (c.base + (← c.follow i.first first))
    else .fault .relativeModeDisabled
  | .halt => return .halt

/-- The words behind an instruction, as many as it has parameters. -/
def operands (contents : Word → Word) (c : Context) (i : Instruction) : List Word :=
  (List.range i.opcode.arity).map fun (k : Nat) => contents (c.ip + (k + 1))

theorem eval_load_eq_follow (mode : Mode) (param : Nat) :
    (c.load mode param).eval contents = (c.follow mode (contents (c.ip + param))).eval contents := by
  cases mode <;> rfl

theorem eval_target_eq_place (mode : Mode) (param : Nat) :
    (c.target mode param).eval contents =
      (c.place mode param (contents (c.ip + param))).eval contents := by
  cases mode <;> rfl

/-- An instruction is resolved with the words behind it for operands. -/
theorem eval_resolve_eq_perform (i : Instruction) :
    (c.resolve i).eval contents = (c.perform i (c.operands contents i)).eval contents := by
  obtain ⟨opcode, first, second, third⟩ := i
  cases opcode
  case halt => rfl
  -- whether the operand is read at all depends on the configuration
  case adjustBase =>
    show Fetch.eval _ (if c.relative then _ else _) = Fetch.eval _ (if c.relative then _ else _)
    split
    · simp only [Fetch.eval_bind, eval_load_eq_follow]
      rfl
    · rfl
  all_goals
    simp only [resolve, perform, combine, branch, Fetch.eval_bind, eval_load_eq_follow,
      eval_target_eq_place]
    rfl

/-! ## Faults behind decoding -/

/-- At an instruction that could be read, this faults for other reasons than that it could not. -/
def FaultsLate {α : Type} (contents : Word → Word) (f : Fetch α) : Prop :=
  ∀ cause, f.eval contents = .error cause →
    ∀ site : Word, 0 ≤ site → (⟨cause, site⟩ : Fault).isOfFetch = false

theorem faultsLate_done {α : Type} (answer : α) : FaultsLate contents (.done answer) :=
  fun _ h => nomatch h

theorem faultsLate_fault {α : Type} {cause : Fault.Cause}
    (h : ∀ site : Word, 0 ≤ site → (⟨cause, site⟩ : Fault).isOfFetch = false) :
    FaultsLate contents (.fault cause : Fetch α) :=
  fun _ heq => Except.error.inj heq ▸ h

theorem FaultsLate.bind {α β : Type} {f : Fetch α} {g : α → Fetch β} (hf : FaultsLate contents f)
    (hg : ∀ answer, FaultsLate contents (g answer)) : FaultsLate contents (f >>= g) := by
  intro cause h
  rw [Fetch.eval_bind] at h
  cases heval : f.eval contents with
  | error cause' =>
    rw [heval] at h
    obtain rfl : cause' = cause := Except.error.inj h
    exact hf cause' heval
  | ok answer =>
    rw [heval] at h
    exact hg answer cause h

theorem faultsLate_cell (address : Word) : FaultsLate contents (Fetch.cell address) :=
  fun _ h => nomatch h

theorem faultsLate_address (a : Word) : FaultsLate contents (address a) := by
  rw [address]
  split
  · exact faultsLate_fault fun site hsite => decide_eq_false (Int.not_lt.mpr hsite)
  · exact faultsLate_done a

theorem faultsLate_relativeAddress (c : Context) (offset : Word) :
    FaultsLate contents (c.relativeAddress offset) := by
  rw [relativeAddress]
  split
  · exact faultsLate_address _
  · exact faultsLate_fault fun _ _ => rfl

theorem faultsLate_load (c : Context) (mode : Mode) (param : Nat) :
    FaultsLate contents (c.load mode param) := by
  refine (faultsLate_cell (c.ip + param)).bind fun word => ?_
  cases mode with
  | immediate => exact faultsLate_done word
  | position => exact (faultsLate_address word).bind faultsLate_cell
  | relative => exact (c.faultsLate_relativeAddress word).bind faultsLate_cell

theorem faultsLate_target (c : Context) (mode : Mode) (param : Nat) :
    FaultsLate contents (c.target mode param) := by
  refine (faultsLate_cell (c.ip + param)).bind fun word => ?_
  cases mode with
  | immediate => exact faultsLate_fault fun _ _ => rfl
  | position => exact faultsLate_address word
  | relative => exact c.faultsLate_relativeAddress word

theorem faultsLate_resolve (c : Context) (i : Instruction) : FaultsLate contents (c.resolve i) :=
  c.resolve_induction (P := fun _ f => FaultsLate contents f) faultsLate_done FaultsLate.bind
    c.faultsLate_load c.faultsLate_target (faultsLate_fault fun _ _ => rfl) i

end Context

namespace Machine

variable {σ : Type} {ask : σ → Option Word × σ} {m : Machine} {s : σ} {i : Instruction}

/-- The words behind the instruction pointer, as many as an instruction has parameters. -/
def operands (m : Machine) (i : Instruction) : List Word :=
  m.context.operands m.memory.get i

/-- What becomes of the machine if it performs this instruction with these operands. -/
def performed (ask : σ → Option Word × σ) (m : Machine) (s : σ) (i : Instruction)
    (operands : List Word) : Machine × σ :=
  match (m.context.perform i operands).eval m.memory.get with
  | .error cause => (m.fetched.fail cause, s)
  | .ok effect => m.fetched.commit ask s i.width effect

/-! ## What is shown -/

/-- The instruction that is shown is the one that is decoded. -/
theorem currentInstruction?_eq (h : m.memory.IsLegal) :
    m.currentInstruction? = m.decoded.toOption.map fun i => i.render (m.operands i) := by
  rw [decoded_eq, currentInstruction?]
  rcases Int.lt_or_le m.ip 0 with hneg | hnonneg
  · -- a negative address was never touched, so it holds zero
    have hzero : m.memory.get m.ip = 0 :=
      Memory.get_eq_zero (Bool.eq_false_iff.mpr fun ha => Int.not_le.mpr hneg (h m.ip ha))
    rw [hzero, if_pos hneg]
    rfl
  · rw [if_neg (Int.not_lt.mpr hnonneg)]
    cases Instruction.decode (m.memory.get m.ip) <;> rfl

/-! ## What is executed -/

/-- A word that does not decode faults as the fault of an instruction that was never read. -/
theorem isOfFetch_of_decoded_error {cause : Fault.Cause} (h : m.decoded = .error cause) :
    (⟨cause, m.ip⟩ : Fault).isOfFetch = true := by
  rw [decoded_eq] at h
  split at h
  · next hneg =>
    cases h
    exact decide_eq_true hneg
  · cases hdecode : Instruction.decode (m.memory.get m.ip) with
    | ok i =>
      rw [hdecode] at h
      cases h
    | error e =>
      rw [hdecode] at h
      cases h
      cases e <;> rfl

/-- Once an instruction is resolved, it can fault only by an overflow. -/
theorem Commits.isOfFetch_eq_false {n : Machine} {width : Nat} {effect : Effect} {fault : Fault}
    (h : m.Commits width effect n) (hfault : n.status = .faulted fault) :
    fault.isOfFetch = false := by
  cases h with
  | overflows =>
    cases hfault
    rfl
  | stores | waits | outputs | jumps | passes | rebases | halts => cases hfault

/-- A step performs the instruction that it decodes, with the words behind it. -/
theorem stepWith_eq_performed (hover : m.isOver = false) (h : m.decoded = .ok i)
    (ask : σ → Option Word × σ) (s : σ) :
    m.stepWith ask s = m.performed ask s i (m.operands i) := by
  rw [stepWith_eq hover, resolved_of_decoded h, Context.eval_resolve_eq_perform, performed, operands]
  cases (m.context.perform i _).eval m.memory.get <;> rfl

/-- A step that has decoded an instruction does not fault as if there had been none. -/
theorem isOfFetch_of_stepWith {fault : Fault} (hover : m.isOver = false) (h : m.decoded = .ok i)
    (hfault : (m.stepWith ask s).1.status = .faulted fault) : fault.isOfFetch = false := by
  rw [stepWith_eq hover, resolved_of_decoded h] at hfault
  cases heval : (m.context.resolve i).eval m.memory.get with
  | error cause =>
    rw [heval] at hfault
    obtain rfl : ⟨cause, m.ip⟩ = fault := Status.faulted.inj hfault
    -- a parameter may well lead to a negative address, but the instruction is not at one
    exact m.context.faultsLate_resolve i cause heval m.ip (decoded_eq_ok_iff.mp h).1
  | ok effect =>
    rw [heval] at hfault
    exact (commits_commit ask m.fetched s i.width effect).isOfFetch_eq_false hfault

/-- No instruction is shown exactly if the step faults for want of one. -/
theorem currentInstruction?_eq_none_iff (hover : m.isOver = false) (h : m.memory.IsLegal)
    (ask : σ → Option Word × σ) (s : σ) :
    m.currentInstruction? = none ↔
      ∃ fault, (m.stepWith ask s).1.status = .faulted fault ∧ fault.isOfFetch = true := by
  rw [currentInstruction?_eq h]
  cases hdecoded : m.decoded with
  | error cause =>
    refine ⟨fun _ => ⟨⟨cause, m.ip⟩, ?_, isOfFetch_of_decoded_error hdecoded⟩, fun _ => rfl⟩
    rw [stepWith_eq hover, resolved_of_decoded_error hdecoded]
    rfl
  | ok i =>
    constructor
    · exact fun hnone => nomatch hnone
    · rintro ⟨fault, hstatus, hfetch⟩
      cases (isOfFetch_of_stepWith hover hdecoded hstatus).symm.trans hfetch

/-- What is shown is the instruction that the step performs, with the operands that it performs it with. -/
theorem stepWith_of_currentInstruction? {text : String} (hover : m.isOver = false)
    (h : m.memory.IsLegal) (htext : m.currentInstruction? = some text) :
    ∃ i, m.decoded = .ok i ∧ text = i.render (m.operands i) ∧
      ∀ (σ : Type) (ask : σ → Option Word × σ) (s : σ),
        m.stepWith ask s = m.performed ask s i (m.operands i) := by
  rw [currentInstruction?_eq h] at htext
  cases hdecoded : m.decoded with
  | error cause =>
    rw [hdecoded] at htext
    cases htext
  | ok i =>
    rw [hdecoded] at htext
    exact ⟨i, rfl, (Option.some.inj htext).symm, fun σ => stepWith_eq_performed hover hdecoded⟩

end Machine

end Intcode
