import Intcode.Proofs.Machine.Footprint

/-!
# What an instruction does to memory

Resolving an instruction reads six cells at most: the instruction, three operands and two words that
these lead to. What is left to be done then is one of a few things, and each has come about in one way
only (`Context.Yields`). Of all of them only a store writes, and it writes to one address, which was
checked. So a step leaves the memory that resolving has left, or writes one word to it at an address
from zero on (`Machine.memory_stepWith`); and no step makes a cell untouched.
-/

namespace Intcode

namespace Fetch

variable {α β : Type} {contents : Word → Word} {j k : Nat}

/-- Over these contents, this many cells are read at most. -/
def ReadsAtMost (contents : Word → Word) (k : Nat) (f : Fetch α) : Prop :=
  (f.reads contents).length ≤ k

theorem readsAtMost_done (answer : α) : (done answer).ReadsAtMost contents 0 :=
  Nat.le_refl 0

theorem readsAtMost_fault (cause : Fault.Cause) : (fault cause : Fetch α).ReadsAtMost contents 0 :=
  Nat.le_refl 0

theorem readsAtMost_cell (address : Word) : (cell address).ReadsAtMost contents 1 :=
  Nat.le_refl 1

theorem ReadsAtMost.mono {f : Fetch α} (h : f.ReadsAtMost contents j) (hjk : j ≤ k) :
    f.ReadsAtMost contents k :=
  Nat.le_trans h hjk

theorem ReadsAtMost.bind {f : Fetch α} {g : α → Fetch β} (hf : f.ReadsAtMost contents j)
    (hg : ∀ answer, (g answer).ReadsAtMost contents k) :
    (f >>= g).ReadsAtMost contents (j + k) := by
  have hfirst : (f.reads contents).length ≤ j := hf
  rw [ReadsAtMost, reads_bind, List.length_append]
  cases f.eval contents with
  | error cause => exact Nat.le_add_right_of_le hfirst
  | ok answer => exact Nat.add_le_add hfirst (hg answer)

end Fetch

namespace Context

variable {contents : Word → Word} {c : Context} {i : Instruction}

/-! ## How much is read -/

theorem readsAtMost_address (a : Word) : (address a).ReadsAtMost contents 0 := by
  rw [address]
  split
  · exact Fetch.readsAtMost_fault _
  · exact Fetch.readsAtMost_done a

theorem readsAtMost_relativeAddress (c : Context) (offset : Word) :
    (c.relativeAddress offset).ReadsAtMost contents 0 := by
  rw [relativeAddress]
  split
  · exact readsAtMost_address _
  · exact Fetch.readsAtMost_fault _

theorem readsAtMost_load (c : Context) (mode : Mode) (param : Nat) :
    (c.load mode param).ReadsAtMost contents 2 := by
  refine (Fetch.readsAtMost_cell (c.ip + param)).bind (k := 1) fun word => ?_
  cases mode with
  | immediate => exact (Fetch.readsAtMost_done word).mono (Nat.zero_le 1)
  | position => exact (readsAtMost_address word).bind Fetch.readsAtMost_cell
  | relative => exact (c.readsAtMost_relativeAddress word).bind Fetch.readsAtMost_cell

theorem readsAtMost_target (c : Context) (mode : Mode) (param : Nat) :
    (c.target mode param).ReadsAtMost contents 1 := by
  refine (Fetch.readsAtMost_cell (c.ip + param)).bind (k := 0) fun word => ?_
  cases mode with
  | immediate => exact Fetch.readsAtMost_fault _
  | position => exact readsAtMost_address word
  | relative => exact c.readsAtMost_relativeAddress word

theorem readsAtMost_combine (c : Context) (i : Instruction) (f : Word → Word → Word) :
    (c.combine i f).ReadsAtMost contents 5 :=
  (c.readsAtMost_load i.first 1).bind (k := 3) fun _ =>
    (c.readsAtMost_load i.second 2).bind (k := 1) fun _ =>
      (c.readsAtMost_target i.third 3).bind fun _ => Fetch.readsAtMost_done _

theorem readsAtMost_branch (c : Context) (i : Instruction) (taken : Word → Bool) :
    (c.branch i taken).ReadsAtMost contents 4 :=
  (c.readsAtMost_load i.first 1).bind (k := 2) fun _ =>
    (c.readsAtMost_load i.second 2).bind fun _ => Fetch.readsAtMost_done _

theorem readsAtMost_resolve (c : Context) (i : Instruction) :
    (c.resolve i).ReadsAtMost contents 5 := by
  have hload (f : Word → Effect) :
      (do return f (← c.load i.first 1) : Fetch Effect).ReadsAtMost contents 5 :=
    ((c.readsAtMost_load i.first 1).bind fun _ => Fetch.readsAtMost_done _).mono (by decide)
  rw [resolve]
  cases i.opcode with
  | add | mul | lessThan | equals => exact c.readsAtMost_combine i _
  | jumpIfTrue | jumpIfFalse => exact (c.readsAtMost_branch i _).mono (by decide)
  | input =>
    exact ((c.readsAtMost_target i.first 1).bind fun _ => Fetch.readsAtMost_done _).mono (by decide)
  | output => exact hload _
  | adjustBase =>
    show Fetch.ReadsAtMost _ _ (if c.relative then _ else _)
    split
    · exact hload _
    · exact (Fetch.readsAtMost_fault _).mono (Nat.zero_le 5)
  | halt => exact (Fetch.readsAtMost_done _).mono (Nat.zero_le 5)

theorem readsAtMost_instruction (c : Context) : c.instruction.ReadsAtMost contents 1 := by
  refine (readsAtMost_address c.ip).bind (k := 1) fun a => ?_
  refine (Fetch.readsAtMost_cell a).bind (k := 0) fun word => ?_
  cases Instruction.decode word with
  | ok i => exact Fetch.readsAtMost_done i
  | error e => exact Fetch.readsAtMost_fault _

/-- No instruction reads more than six cells. -/
theorem readsAtMost_plan (c : Context) : c.plan.ReadsAtMost contents 6 :=
  c.readsAtMost_instruction.bind fun i =>
    (c.readsAtMost_resolve i).bind fun _ => Fetch.readsAtMost_done _

/-! ## How effects come about -/

/-- What an instruction can be resolved to, and from which parameters. -/
inductive Yields (contents : Word → Word) (c : Context) (i : Instruction) : Effect → Prop
  | store {target value : Word} :
      (c.target i.third 3).eval contents = .ok target → Yields contents c i (.store target value)
  | input {target : Word} :
      i.opcode = .input → (c.target i.first 1).eval contents = .ok target →
        Yields contents c i (.input target)
  | output {value : Word} :
      i.opcode = .output → (c.load i.first 1).eval contents = .ok value →
        Yields contents c i (.output value)
  | jump {tested destination : Word} :
      i.opcode = .jumpIfTrue ∧ tested ≠ 0 ∨ i.opcode = .jumpIfFalse ∧ tested = 0 →
        (c.load i.first 1).eval contents = .ok tested →
          (c.load i.second 2).eval contents = .ok destination →
            Yields contents c i (.jump destination)
  | pass : Yields contents c i .pass
  | rebase {base : Word} : i.opcode = .adjustBase → Yields contents c i (.rebase base)
  | halt : i.opcode = .halt → Yields contents c i .halt

theorem yields_of_eval_combine {f : Word → Word → Word} {effect : Effect}
    (h : (c.combine i f).eval contents = .ok effect) : Yields contents c i effect := by
  obtain ⟨a, -, h⟩ := Fetch.exists_of_eval_bind h
  obtain ⟨b, -, h⟩ := Fetch.exists_of_eval_bind h
  obtain ⟨target, htarget, h⟩ := Fetch.exists_of_eval_bind h
  obtain rfl := Except.ok.inj h
  exact .store htarget

theorem yields_of_eval_branch {taken : Word → Bool} {effect : Effect}
    (htaken : ∀ a, taken a = true →
      i.opcode = .jumpIfTrue ∧ a ≠ 0 ∨ i.opcode = .jumpIfFalse ∧ a = 0)
    (h : (c.branch i taken).eval contents = .ok effect) : Yields contents c i effect := by
  obtain ⟨tested, htested, h⟩ := Fetch.exists_of_eval_bind h
  obtain ⟨destination, hdestination, h⟩ := Fetch.exists_of_eval_bind h
  obtain rfl := Except.ok.inj h
  split
  · next hjumps => exact .jump (htaken tested hjumps) htested hdestination
  · exact .pass

/-- An effect has come about as the opcode says. -/
theorem yields_of_eval_resolve {effect : Effect} (h : (c.resolve i).eval contents = .ok effect) :
    Yields contents c i effect := by
  rw [resolve] at h
  cases hopcode : i.opcode <;> simp only [hopcode] at h
  case add | mul | lessThan | equals => exact yields_of_eval_combine h
  case jumpIfTrue =>
    exact yields_of_eval_branch (fun a ha => Or.inl ⟨hopcode, bne_iff_ne.mp ha⟩) h
  case jumpIfFalse =>
    exact yields_of_eval_branch (fun a ha => Or.inr ⟨hopcode, beq_iff_eq.mp ha⟩) h
  case input =>
    obtain ⟨target, htarget, h⟩ := Fetch.exists_of_eval_bind h
    obtain rfl := Except.ok.inj h
    exact .input hopcode htarget
  case output =>
    obtain ⟨value, hvalue, h⟩ := Fetch.exists_of_eval_bind h
    obtain rfl := Except.ok.inj h
    exact .output hopcode hvalue
  case adjustBase =>
    split at h
    · obtain ⟨delta, -, h⟩ := Fetch.exists_of_eval_bind h
      obtain rfl := Except.ok.inj h
      exact .rebase hopcode
    · cases h
  case halt =>
    obtain rfl := Except.ok.inj h
    exact .halt hopcode

/-- The place of a result is an address that passed the check. -/
theorem nonneg_of_eval_target {mode : Mode} {param : Nat} {target : Word}
    (h : (c.target mode param).eval contents = .ok target) : 0 ≤ target := by
  obtain ⟨word, -, h⟩ := Fetch.exists_of_eval_bind h
  cases mode with
  | immediate => cases h
  | position => exact (nonneg_of_eval_address h).2
  | relative => exact nonneg_of_eval_relativeAddress h

end Context

/-- No word is stored at a negative address. -/
theorem Context.Yields.nonneg {contents : Word → Word} {c : Context} {i : Instruction}
    {effect : Effect} {target : Word} (h : Yields contents c i effect)
    (htarget : effect.target? = some target) : 0 ≤ target := by
  cases h with
  | store h => exact Option.some.inj htarget ▸ nonneg_of_eval_target h
  | input _ h => exact Option.some.inj htarget ▸ nonneg_of_eval_target h
  | output | jump | pass | rebase | halt => cases htarget

namespace Machine

variable {σ : Type} {ask : σ → Option Word × σ} {m : Machine} {s : σ} {i : Instruction}
  {effect : Effect}

/-! ## The instruction of a machine -/

/-- The instruction that the machine stands at, or why it stands at none. -/
def decoded (m : Machine) : Except Fault.Cause Instruction :=
  m.context.instruction.eval m.memory.get

/-- A machine stands at an instruction if its instruction pointer is an address and the word there
decodes. -/
theorem decoded_eq (m : Machine) :
    m.decoded =
      if m.ip < 0 then .error (.negativeAddress m.ip)
      else
        match Instruction.decode (m.memory.get m.ip) with
        | .ok i => .ok i
        | .error e => .error (.ofDecodeError e) := by
  rw [decoded, Context.instruction]
  simp only [Fetch.eval_bind, Fetch.eval_cell, pure_bind]
  rw [Context.address]
  show _ = if m.context.ip < 0 then _ else _
  split
  · rfl
  · show Fetch.eval _ (match Instruction.decode (m.memory.get m.ip) with | .ok i => _ | .error e => _) = _
    cases Instruction.decode (m.memory.get m.ip) <;> rfl

theorem decoded_eq_ok_iff :
    m.decoded = .ok i ↔ 0 ≤ m.ip ∧ Instruction.decode (m.memory.get m.ip) = .ok i := by
  rw [decoded_eq]
  split
  · next hneg => simp [Int.not_le.mpr hneg]
  · next hnonneg =>
    cases Instruction.decode (m.memory.get m.ip) <;> simp [Int.not_lt.mp hnonneg]

/-- Resolving is decoding and then following the parameters. -/
theorem resolved_of_decoded (h : m.decoded = .ok i) :
    m.resolved = ((m.context.resolve i).eval m.memory.get).map fun effect => (i, effect) := by
  rw [resolved, Context.plan, Fetch.eval_bind, ← decoded, h]
  show Fetch.eval _ (m.context.resolve i >>= fun effect => pure (i, effect)) = _
  rw [Fetch.eval_bind]
  cases (m.context.resolve i).eval m.memory.get <;> rfl

theorem resolved_of_decoded_error {cause : Fault.Cause} (h : m.decoded = .error cause) :
    m.resolved = .error cause := by
  rw [resolved, Context.plan, Fetch.eval_bind, ← decoded, h]
  rfl

/-- What is resolved was decoded, and has come about as its opcode says. -/
theorem decoded_of_resolved (h : m.resolved = .ok (i, effect)) :
    m.decoded = .ok i ∧ m.context.Yields m.memory.get i effect := by
  cases hdecoded : m.decoded with
  | error cause => cases (resolved_of_decoded_error hdecoded).symm.trans h
  | ok j =>
    rw [resolved_of_decoded hdecoded] at h
    cases heffect : (m.context.resolve j).eval m.memory.get with
    | error cause =>
      rw [heffect] at h
      cases h
    | ok effect' =>
      rw [heffect] at h
      cases h
      exact ⟨rfl, Context.yields_of_eval_resolve heffect⟩

/-! ## Memory after a step -/

/-- Of all effects only those with a target write, and only there. -/
theorem Commits.memory_eq_or {n : Machine} {width : Nat} (h : m.Commits width effect n) :
    n.memory = m.memory ∨
      ∃ target value, effect.target? = some target ∧ n.memory = m.memory.write target value := by
  cases h with
  | stores queue htarget => exact Or.inr ⟨_, _, htarget, rfl⟩
  | overflows | waits | outputs | jumps | passes | rebases | halts => exact Or.inl rfl

/-- A step leaves the memory that resolving its instruction has left, or writes one word to it, at an
address that is not negative. -/
theorem memory_stepWith (ask : σ → Option Word × σ) (s : σ) (hover : m.isOver = false) :
    (m.stepWith ask s).1.memory = m.fetched.memory ∨
      ∃ target value, 0 ≤ target ∧
        (m.stepWith ask s).1.memory = m.fetched.memory.write target value := by
  rw [stepWith_eq hover]
  rcases hresolved : m.resolved with cause | ⟨i, effect⟩
  · exact Or.inl rfl
  · obtain ⟨-, hyields⟩ := decoded_of_resolved hresolved
    refine (commits_commit ask m.fetched s i.width effect).memory_eq_or.imp_right ?_
    rintro ⟨target, value, htarget, hmemory⟩
    exact ⟨target, value, hyields.nonneg htarget, hmemory⟩

/-- What resolving its instruction has touched is touched after a step. -/
theorem contains_stepWith_of_fetched {a : Word} (hover : m.isOver = false)
    (h : m.fetched.memory.contains a = true) : (m.stepWith ask s).1.memory.contains a = true := by
  rcases memory_stepWith ask s hover with hmemory | ⟨target, value, -, hmemory⟩
  · rw [hmemory, h]
  · rw [hmemory, Memory.contains_write, h, Bool.or_true]

/-- A step makes no cell untouched. -/
theorem contains_stepWith {a : Word} (ask : σ → Option Word × σ) (s : σ)
    (h : m.memory.contains a = true) : (m.stepWith ask s).1.memory.contains a = true := by
  cases hover : m.isOver with
  | true => rwa [stepWith_of_isOver hover]
  | false => exact contains_stepWith_of_fetched hover (contains_fetched_of_contains h)

end Machine

end Intcode
