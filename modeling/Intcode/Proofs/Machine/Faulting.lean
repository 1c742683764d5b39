import Intcode.Proofs.Machine.Footprint
import Intcode.Proofs.Machine.Rig

/-!
# Faults leave no trace

An instruction faults while it is resolved, or because the word that it was to store, or the new
relative base, does not fit. Either way that comes before anything is changed: all that is left of the
instruction is that its machine has faulted, that some cells are touched which were not before, and that
an input word may be gone.
-/

namespace Intcode

namespace Machine

variable {σ : Type} {ask : σ → Option Word × σ} {m : Machine} {s : σ} {fault : Fault}

/-- A call answers a fault exactly if it has left the machine with it. -/
theorem answer_eq_error_iff {α : Type} {result : α} :
    m.answer result = .error fault ↔ m.status = .faulted fault := by
  cases hs : m.status <;> simp [answer, fault?, hs]

/-! ## What a faulting step does -/

/-- Of an effect that faults only the word is seen that it took from the queue, if it did. -/
theorem Commits.exists_fail {n : Machine} {width : Nat} {effect : Effect}
    (h : m.Commits width effect n) (hfault : n.status = .faulted fault) :
    ∃ queue cause, n = ({ m with queue } : Machine).fail cause := by
  cases h with
  | overflows queue => exact ⟨queue, _, rfl⟩
  | stores | waits | outputs | jumps | passes | rebases | halts => cases hfault

/-- A step that faults has resolved its instruction, as far as it got, and taken an input word at
most. -/
theorem exists_fail_of_stepWith (hover : m.isOver = false)
    (h : (m.stepWith ask s).1.status = .faulted fault) :
    ∃ queue cause, (m.stepWith ask s).1 = ({ m.fetched with queue } : Machine).fail cause := by
  rw [stepWith_eq hover] at h ⊢
  rcases hresolved : m.resolved with cause | ⟨i, effect⟩
  · exact ⟨m.queue, cause, rfl⟩
  · rw [hresolved] at h
    exact (commits_commit ask m.fetched s i.width effect).exists_fail h

end Machine

namespace Rig

variable {σ : Type} {ask : σ → Option Word × σ} {rig next : Rig σ} {fault : Fault}

/-- A step that answers a fault has left the machine with it. -/
theorem status_of_performs_step (h : Operation.step.Performs ask rig (.status (.error fault)) next) :
    next = rig.step ask ∧ next.machine.status = .faulted fault := by
  generalize hanswer : Answer.status (.error fault) = answer at h
  cases h with
  | step => exact ⟨rfl, Machine.answer_eq_error_iff.mp (Answer.status.inj hanswer).symm⟩

/-- **A fault leaves no trace.** If a step of a machine that has neither halted nor faulted answers a
fault, then the instruction pointer, the relative base, the output slot and the configuration are as
they were, and so is the word at every address. The cells that were touched still are; those that are
touched now and were not before hold zero, and their addresses are not negative. The fault is that of
the instruction that the machine still stands at, and it is the machine's fault from now on. -/
theorem fault_leaves_no_trace (hover : rig.machine.isOver = false)
    (h : Operation.step.Performs ask rig (.status (.error fault)) next) :
    next.machine.ip = rig.machine.ip ∧ next.machine.base = rig.machine.base ∧
    next.machine.slot = rig.machine.slot ∧ next.machine.config = rig.machine.config ∧
    (∀ a, next.machine.memory.get a = rig.machine.memory.get a) ∧
    (∀ a, rig.machine.memory.contains a = true → next.machine.memory.contains a = true) ∧
    (∀ a, rig.machine.memory.contains a = false → next.machine.memory.contains a = true →
      next.machine.memory.get a = 0 ∧ 0 ≤ a) ∧
    fault.site = rig.machine.ip ∧ next.machine.status = .faulted fault ∧
    next.machine.fault? = some fault := by
  obtain ⟨rfl, hstatus⟩ := status_of_performs_step h
  obtain ⟨queue, cause, hfail⟩ := Machine.exists_fail_of_stepWith hover hstatus
  have hmachine : (rig.step ask).machine =
      ({ rig.machine.fetched with queue } : Machine).fail cause := hfail
  obtain rfl : (⟨cause, rig.machine.ip⟩ : Fault) = fault := by
    rw [hmachine] at hstatus
    exact Machine.Status.faulted.inj hstatus
  rw [hmachine]
  refine ⟨rfl, rfl, rfl, rfl, rig.machine.get_fetched, ?_, ?_, rfl, rfl, rfl⟩
  · exact fun a hbefore => Machine.contains_fetched_of_contains hbefore
  · exact fun a hbefore hafter => Machine.fetched_of_newly_touched hbefore hafter

/-- A machine of 64 bits that has moved its base and put out a word adds a word too large for it to the
zero of a cell that was never touched, which is touched then. -/
theorem fault_leaves_no_trace_sum :
    let ask : Unit → Option Word × Unit := Machine.noSource
    let program : Program := ⟨[109, 7, 104, 5, 1201, 60, 9223372036854775808, 50, 99]⟩
    let rig := (step ask)^[2] (ofProgram program { width := .bits64 })
    let next := rig.step ask
    let fault : Fault := ⟨.overflow 9223372036854775808, 4⟩
    rig.machine.isOver = false ∧
      Operation.step.Performs ask rig (.status (.error fault)) next ∧
      rig.machine.memory.contains 67 = false ∧ next.machine.memory.contains 67 = true ∧
      next.machine.memory.get 67 = 0 ∧ next.machine.ip = 4 ∧ next.machine.base = 7 ∧
      next.machine.slot = some 5 ∧ next.machine.memory.get 50 = rig.machine.memory.get 50 ∧
      next.machine.memory.contains 4 = true ∧ fault.site = 4 ∧
      next.machine.fault? = some fault := by
  intro ask program rig next fault
  have hover : rig.machine.isOver = false := by decide +kernel
  have hanswer : next.machine.answer next.machine.status = .error fault :=
    Machine.answer_eq_error_iff.mpr (by decide +kernel)
  have hperforms : Operation.step.Performs ask rig (.status (.error fault)) next :=
    hanswer ▸ .step rig
  have hbefore : rig.machine.memory.contains 67 = false := by decide +kernel
  have hafter : next.machine.memory.contains 67 = true := by decide +kernel
  have himage : rig.machine.memory.contains 4 = true := by decide +kernel
  have hip : rig.machine.ip = 4 := by decide +kernel
  have hbase : rig.machine.base = 7 := by decide +kernel
  have hslot : rig.machine.slot = some 5 := by decide +kernel
  obtain ⟨hip', hbase', hslot', -, hget, htouched, hnew, hsite, -, hfault⟩ :=
    fault_leaves_no_trace hover hperforms
  exact ⟨hover, hperforms, hbefore, hafter, (hnew 67 hbefore hafter).1, hip'.trans hip,
    hbase'.trans hbase, hslot'.trans hslot, hget 50, htouched 4 himage, hsite.trans hip, hfault⟩

end Rig

end Intcode
