import Intcode.Proofs.Machine.Step

/-!
# Which cells an instruction reads

Every address is checked before it is read: that of the instruction itself, and each that a parameter
leads to. An operand stands behind its instruction, so it needs no check of its own. Hence no
instruction reads a cell at a negative address, whatever it comes to (`Context.readsLegally_plan`), and
the cells that it is the first to touch hold zero and have addresses from zero on.
-/

namespace Intcode

namespace Fetch

variable {α β : Type} {contents : Word → Word}

/-- Computations in sequence read one after the other, the second only if the first answers. -/
theorem reads_bind (f : Fetch α) (g : α → Fetch β) :
    (f >>= g).reads contents =
      f.reads contents ++
        match f.eval contents with
        | .ok answer => (g answer).reads contents
        | .error _ => [] := by
  show (f.bind g).reads contents = _
  induction f with
  | done answer => rfl
  | fault cause => rfl
  | read address next ih =>
    rw [bind, reads, reads, eval, List.cons_append]
    exact congrArg (address :: ·) (ih (contents address))

/-- Over these contents, no negative address is read. -/
def ReadsLegally (contents : Word → Word) (f : Fetch α) : Prop :=
  ∀ a ∈ f.reads contents, 0 ≤ a

theorem readsLegally_done (answer : α) : (done answer).ReadsLegally contents :=
  fun _ hmem => absurd hmem List.not_mem_nil

theorem readsLegally_fault (cause : Fault.Cause) : (fault cause : Fetch α).ReadsLegally contents :=
  fun _ hmem => absurd hmem List.not_mem_nil

theorem readsLegally_cell {address : Word} (h : 0 ≤ address) :
    (cell address).ReadsLegally contents :=
  fun _ hmem => List.mem_singleton.mp hmem ▸ h

/-- Of computations in sequence, the second may rely on what the first has answered. -/
theorem ReadsLegally.bind {f : Fetch α} {g : α → Fetch β} (hf : f.ReadsLegally contents)
    (hg : ∀ answer, f.eval contents = .ok answer → (g answer).ReadsLegally contents) :
    (f >>= g).ReadsLegally contents := by
  intro a hmem
  rw [reads_bind, List.mem_append] at hmem
  rcases hmem with hmem | hmem
  · exact hf a hmem
  · cases heval : f.eval contents with
    | error cause => simp [heval] at hmem
    | ok answer =>
      rw [heval] at hmem
      exact hg answer heval a hmem

end Fetch

namespace Context

variable {contents : Word → Word} {c : Context}

/-- What holds of answers, of the parameters and of the lack of relative addressing, and is kept by
sequencing, holds of every instruction. -/
theorem resolve_induction {P : (α : Type) → Fetch α → Prop} (c : Context)
    (hdone : ∀ {α : Type} (answer : α), P α (.done answer))
    (hbind : ∀ {α β : Type} {f : Fetch α} {g : α → Fetch β},
      P α f → (∀ answer, P β (g answer)) → P β (f >>= g))
    (hload : ∀ mode param, P Word (c.load mode param))
    (htarget : ∀ mode param, P Word (c.target mode param))
    (hrefused : P Effect (.fault .relativeModeDisabled)) (i : Instruction) : P Effect (c.resolve i) := by
  have hcombine (f : Word → Word → Word) : P Effect (c.combine i f) :=
    hbind (hload i.first 1) fun _ =>
      hbind (hload i.second 2) fun _ => hbind (htarget i.third 3) fun _ => hdone _
  have hbranch (taken : Word → Bool) : P Effect (c.branch i taken) :=
    hbind (hload i.first 1) fun _ => hbind (hload i.second 2) fun _ => hdone _
  rw [resolve]
  cases i.opcode with
  | add | mul | lessThan | equals => exact hcombine _
  | jumpIfTrue | jumpIfFalse => exact hbranch _
  | input => exact hbind (htarget i.first 1) fun _ => hdone _
  | output => exact hbind (hload i.first 1) fun _ => hdone _
  | adjustBase =>
    show P Effect (if c.relative then _ else _)
    split
    · exact hbind (hload i.first 1) fun _ => hdone _
    · exact hrefused
  | halt => exact hdone _

/-! ## Checked addresses -/

theorem readsLegally_address (a : Word) : (address a).ReadsLegally contents := by
  rw [address]
  split
  · exact Fetch.readsLegally_fault _
  · exact Fetch.readsLegally_done a

theorem readsLegally_relativeAddress (c : Context) (offset : Word) :
    (c.relativeAddress offset).ReadsLegally contents := by
  rw [relativeAddress]
  split
  · exact readsLegally_address _
  · exact Fetch.readsLegally_fault _

/-- An address that passes the check is not negative. -/
theorem nonneg_of_eval_address {a checked : Word}
    (h : (address a).eval contents = .ok checked) : checked = a ∧ 0 ≤ checked := by
  rw [address] at h
  split at h
  · cases h
  · next hnonneg =>
    obtain rfl : a = checked := Except.ok.inj h
    exact ⟨rfl, Int.not_lt.mp hnonneg⟩

theorem nonneg_of_eval_relativeAddress {offset checked : Word}
    (h : (c.relativeAddress offset).eval contents = .ok checked) : 0 ≤ checked := by
  rw [relativeAddress] at h
  split at h
  · exact (nonneg_of_eval_address h).2
  · cases h

/-! ## Instructions -/

/-- An operand stands behind the instruction. -/
theorem readsLegally_operand (hip : 0 ≤ c.ip) (param : Nat) :
    (c.operand param).ReadsLegally contents :=
  Fetch.readsLegally_cell (Int.add_nonneg hip (Int.natCast_nonneg param))

theorem readsLegally_load (hip : 0 ≤ c.ip) (mode : Mode) (param : Nat) :
    (c.load mode param).ReadsLegally contents := by
  refine (readsLegally_operand hip param).bind fun word _ => ?_
  cases mode with
  | immediate => exact Fetch.readsLegally_done word
  | position =>
    exact (readsLegally_address word).bind fun _ h =>
      Fetch.readsLegally_cell (nonneg_of_eval_address h).2
  | relative =>
    exact (c.readsLegally_relativeAddress word).bind fun _ h =>
      Fetch.readsLegally_cell (nonneg_of_eval_relativeAddress h)

theorem readsLegally_target (hip : 0 ≤ c.ip) (mode : Mode) (param : Nat) :
    (c.target mode param).ReadsLegally contents := by
  refine (readsLegally_operand hip param).bind fun word _ => ?_
  cases mode with
  | immediate => exact Fetch.readsLegally_fault _
  | position => exact readsLegally_address word
  | relative => exact c.readsLegally_relativeAddress word

theorem readsLegally_resolve (hip : 0 ≤ c.ip) (i : Instruction) :
    (c.resolve i).ReadsLegally contents :=
  c.resolve_induction (P := fun _ f => f.ReadsLegally contents) Fetch.readsLegally_done
    (fun hf hg => hf.bind fun answer _ => hg answer) (readsLegally_load hip) (readsLegally_target hip)
    (Fetch.readsLegally_fault _) i

theorem readsLegally_instruction (c : Context) : c.instruction.ReadsLegally contents := by
  refine (readsLegally_address c.ip).bind fun a ha => ?_
  refine (Fetch.readsLegally_cell (nonneg_of_eval_address ha).2).bind fun word _ => ?_
  cases Instruction.decode word with
  | ok i => exact Fetch.readsLegally_done i
  | error e => exact Fetch.readsLegally_fault _

/-- An instruction is read only at an address that passes the check. -/
theorem nonneg_ip_of_eval_instruction {i : Instruction}
    (h : c.instruction.eval contents = .ok i) : 0 ≤ c.ip := by
  obtain ⟨a, ha, -⟩ := Fetch.exists_of_eval_bind h
  obtain ⟨rfl, hnonneg⟩ := nonneg_of_eval_address ha
  exact hnonneg

/-- No instruction reads a cell at a negative address. -/
theorem readsLegally_plan (c : Context) : c.plan.ReadsLegally contents :=
  c.readsLegally_instruction.bind fun i hi =>
    (readsLegally_resolve (nonneg_ip_of_eval_instruction hi) i).bind fun _ _ =>
      Fetch.readsLegally_done _

end Context

namespace Machine

/-! ## Cells touched for the first time -/

/-- Resolving an instruction touches what it reads and nothing else. -/
theorem contains_fetched (m : Machine) (a : Word) :
    m.fetched.memory.contains a =
      (decide (a ∈ m.context.plan.reads m.memory.get) || m.memory.contains a) :=
  Fetch.contains_run _ _ _

/-- Cells stay touched. -/
theorem contains_fetched_of_contains {m : Machine} {a : Word} (h : m.memory.contains a = true) :
    m.fetched.memory.contains a = true := by
  rw [contains_fetched, h, Bool.or_true]

/-- A cell that resolving an instruction is the first to touch holds zero and has no negative
address. -/
theorem fetched_of_newly_touched {m : Machine} {a : Word} (hbefore : m.memory.contains a = false)
    (hafter : m.fetched.memory.contains a = true) : m.fetched.memory.get a = 0 ∧ 0 ≤ a := by
  constructor
  · rw [get_fetched, Memory.get_eq_zero hbefore]
  · rw [contains_fetched, hbefore, Bool.or_false, decide_eq_true_eq] at hafter
    exact m.context.readsLegally_plan a hafter

end Machine

end Intcode
