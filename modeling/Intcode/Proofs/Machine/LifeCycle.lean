import Intcode.Proofs.Machine.Rig

/-!
# The life of a machine

A machine that halts or faults has come to its end. Every operation on it, from then on, leaves its
status and its registers as they are, and having it execute changes nothing at all: not its memory, not
its queue, not the source behind it. So patching its memory or queueing input does not revive it, and it
answers the same as ever.

A fault names the instruction that it stopped at, and no other operation moves the instruction pointer
away from there (`isSited_performs`).
-/

namespace Intcode

namespace Machine

variable {σ : Type} {ask : σ → Option Word × σ} {m : Machine} {s : σ}

/-! ## The site of a fault -/

/-- Should the machine have faulted, then at the instruction that it stands at. -/
def IsSited (m : Machine) : Prop :=
  ∀ fault, m.status = .faulted fault → fault.site = m.ip

theorem isSited_of_fault?_eq_none (h : m.fault? = none) : m.IsSited := by
  intro fault hfault
  rw [fault?, hfault] at h
  cases h

theorem isSited_fail (m : Machine) (cause : Fault.Cause) : (m.fail cause).IsSited := by
  intro fault hfault
  cases hfault
  rfl

theorem Commits.isSited {n : Machine} {width : Nat} {effect : Effect}
    (h : m.Commits width effect n) : n.IsSited := by
  cases h with
  | overflows => exact isSited_fail _ _
  | stores | waits | outputs | jumps | passes | rebases | halts => exact isSited_of_fault?_eq_none rfl

/-- A step that faults does so at the instruction that it stays at. -/
theorem IsSited.stepWith (h : m.IsSited) (ask : σ → Option Word × σ) (s : σ) :
    (m.stepWith ask s).1.IsSited := by
  cases hover : m.isOver with
  | true => rwa [stepWith_of_isOver hover]
  | false =>
    rw [stepWith_eq hover]
    rcases m.resolved with cause | ⟨i, effect⟩
    · exact isSited_fail m.fetched cause
    · exact (commits_commit ask m.fetched s i.width effect).isSited

/-! ## Outputs -/

/-- An effect that ends in the status `output` was to put out a word, which is in the slot now. -/
theorem Commits.exists_output {n : Machine} {width : Nat} {effect : Effect}
    (h : m.Commits width effect n) (hstatus : n.status = .output) :
    ∃ value, effect = .output value ∧ n.slot = some value := by
  cases h with
  | outputs => exact ⟨_, rfl, rfl⟩
  | stores | overflows | waits | jumps | passes | rebases | halts => cases hstatus

/-- The next instruction puts out a word. -/
def PutsNext (m : Machine) (word : Word) : Prop :=
  m.isOver = false ∧ ∃ i, m.resolved = .ok (i, .output word)

/-- A step that leaves a machine in the status `output` has put out the word that is in the slot now. -/
theorem exists_putsNext_of_stepWith (h : (m.stepWith ask s).1.status = .output) :
    ∃ word, m.PutsNext word ∧ (m.stepWith ask s).1.slot = some word := by
  cases hover : m.isOver with
  | true =>
    rw [stepWith_of_isOver hover] at h
    rw [isOver, h] at hover
    cases hover
  | false =>
    rw [stepWith_eq hover] at h ⊢
    rcases hresolved : m.resolved with cause | ⟨i, effect⟩
    · rw [hresolved] at h
      cases h
    · rw [hresolved] at h
      obtain ⟨value, rfl, hslot⟩ :=
        (commits_commit ask m.fetched s i.width effect).exists_output h
      exact ⟨value, ⟨hover, i, hresolved⟩, hslot⟩

/-! ## Machines at their end -/

theorem fault?_eq_some_iff {fault : Fault} : m.fault? = some fault ↔ m.status = .faulted fault := by
  cases hs : m.status <;> simp [fault?, hs]

/-- A call answers with a status only if that is not a fault. -/
theorem ne_faulted_of_answer {status : Status} (h : m.answer m.status = .ok status)
    (fault : Fault) : status ≠ .faulted fault := by
  rintro rfl
  cases hs : m.status <;> simp [answer, fault?, hs] at h

/-- A call that answers with a status has left the machine in it. -/
theorem status_of_answer {status : Status} (h : m.answer m.status = .ok status) :
    m.status = status := by
  rw [answer] at h
  split at h
  · cases h
  · exact Except.ok.inj h

/-- A run ends at once on a machine at its end. -/
theorem runWith_succ_of_isOver (h : m.isOver = true) (ask : σ → Option Word × σ) (fuel : Nat)
    (s : σ) : m.runWith ask (fuel + 1) s = some (m, s) := by
  have hstatus : m.status ≠ .running := by
    intro hs
    rw [isOver, hs] at h
    cases h
  rw [runWith, stepWith_of_isOver h]
  exact if_neg hstatus

/-- Draining a machine at its end collects nothing. -/
theorem drainOnto_succ_of_isOver (h : m.isOver = true) (ask : σ → Option Word × σ)
    (outputs : List Word) (fuel : Nat) (s : σ) :
    drainOnto ask outputs (fuel + 1) m s = some (outputs, m, s) := by
  rw [drainOnto, stepWith_of_isOver h]
  cases hs : m.status with
  | halted => simp only [hs]
  | faulted fault => simp only [hs]
  | running | output | awaitingInput => rw [isOver, hs] at h; cases h

end Machine

namespace Rig

variable {σ : Type} {ask : σ → Option Word × σ} {rig next : Rig σ} {answer : Answer}

/-! ## Edits -/

@[simp] theorem status_apply (edit : Edit σ) (rig : Rig σ) :
    (edit.apply rig).machine.status = rig.machine.status := by
  cases edit <;> rfl

@[simp] theorem ip_apply (edit : Edit σ) (rig : Rig σ) :
    (edit.apply rig).machine.ip = rig.machine.ip := by
  cases edit <;> rfl

@[simp] theorem base_apply (edit : Edit σ) (rig : Rig σ) :
    (edit.apply rig).machine.base = rig.machine.base := by
  cases edit <;> rfl

/-- A fault stays the fault of the instruction that the machine stands at, whatever is done. -/
theorem isSited_performs {operations : List (Operation σ)} {answers : List Answer}
    (h : Performs ask operations rig answers next) (hrig : rig.machine.IsSited) :
    next.machine.IsSited := by
  refine h.invariant (P := fun rig => rig.machine.IsSited) ?_ ?_ hrig
  · intro edit rig hrig fault hfault
    rw [status_apply] at hfault
    rw [ip_apply]
    exact hrig fault hfault
  · exact fun rig hrig => hrig.stepWith _ _

/-! ## Rigs at their end -/

theorem step_of_isOver (h : rig.machine.isOver = true) : rig.step ask = rig := by
  rw [step, Machine.stepWith_of_isOver h]

theorem performs_step_iff_of_isOver (h : rig.machine.isOver = true) :
    Operation.step.Performs ask rig answer next ↔
      next = rig ∧ answer = .status (rig.machine.answer rig.machine.status) := by
  constructor
  · intro hstep
    cases hstep
    rw [step_of_isOver h]
    exact ⟨rfl, rfl⟩
  · rintro ⟨rfl, rfl⟩
    have hstep : Operation.step.Performs ask next _ (next.step ask) := .step next
    rwa [step_of_isOver h] at hstep

theorem performs_run_iff_of_isOver (h : rig.machine.isOver = true) :
    Operation.run.Performs ask rig answer next ↔
      next = rig ∧ answer = .status (rig.machine.answer rig.machine.status) := by
  constructor
  · intro hrun
    obtain ⟨machine, source⟩ := next
    cases hrun with
    | @run _ _ fuel hrun =>
      cases fuel with
      | zero => cases hrun
      | succ fuel =>
        rw [Machine.runWith_succ_of_isOver h] at hrun
        cases hrun
        exact ⟨rfl, rfl⟩
  · rintro ⟨rfl, rfl⟩
    exact .run (Machine.runWith_succ_of_isOver h _ 0 _)

theorem performs_drain_iff_of_isOver (h : rig.machine.isOver = true) :
    Operation.drain.Performs ask rig answer next ↔
      next = rig ∧ answer = .outputs (rig.machine.answer []) := by
  have hdrain (fuel : Nat) : rig.machine.drainWith (consult ask) (fuel + 1) rig.source =
      some ([], rig.machine, rig.source) := by
    rw [Machine.drainWith, Machine.drainOnto_succ_of_isOver h]
    rfl
  constructor
  · intro hperforms
    obtain ⟨machine, source⟩ := next
    cases hperforms with
    | @drain _ _ fuel outputs hsome =>
      cases fuel with
      | zero => cases hsome
      | succ fuel =>
        rw [hdrain] at hsome
        cases hsome
        exact ⟨rfl, rfl⟩
  · rintro ⟨rfl, rfl⟩
    exact .drain (hdrain 0)

/-- Having the machine execute changes nothing, neither the machine nor what is attached to it, and
always answers the same: `status` to a step or a run, and `outputs` to draining. -/
structure IsSpent (ask : σ → Option Word × σ) (rig : Rig σ) (status : Except Fault Machine.Status)
    (outputs : Except Fault (List Word)) : Prop where
  step_iff : ∀ answer next,
    Operation.step.Performs ask rig answer next ↔ next = rig ∧ answer = .status status
  run_iff : ∀ answer next,
    Operation.run.Performs ask rig answer next ↔ next = rig ∧ answer = .status status
  drain_iff : ∀ answer next,
    Operation.drain.Performs ask rig answer next ↔ next = rig ∧ answer = .outputs outputs

/-- A machine at its end is spent, and answers as its status says. -/
theorem isSpent_of_isOver (ask : σ → Option Word × σ) (h : rig.machine.isOver = true) :
    IsSpent ask rig (rig.machine.answer rig.machine.status) (rig.machine.answer []) where
  step_iff _ _ := performs_step_iff_of_isOver h
  run_iff _ _ := performs_run_iff_of_isOver h
  drain_iff _ _ := performs_drain_iff_of_isOver h

theorem isSpent_of_halted (ask : σ → Option Word × σ) (h : rig.machine.status = .halted) :
    IsSpent ask rig (.ok .halted) (.ok []) := by
  have hover : rig.machine.isOver = true := by rw [Machine.isOver, h]
  have hspent := isSpent_of_isOver ask hover
  rwa [Machine.answer, Machine.answer, Machine.fault?, h] at hspent

theorem isSpent_of_faulted (ask : σ → Option Word × σ) {fault : Fault}
    (h : rig.machine.status = .faulted fault) :
    IsSpent ask rig (.error fault) (.error fault) := by
  have hover : rig.machine.isOver = true := by rw [Machine.isOver, h]
  have hspent := isSpent_of_isOver ask hover
  rwa [Machine.answer, Machine.answer, Machine.fault?, h] at hspent

/-- A machine that has come to its end stays at it, whatever is done. -/
theorem Performs.keeps_end {operations : List (Operation σ)} {answers : List Answer}
    (h : Performs ask operations rig answers next) (hover : rig.machine.isOver = true) :
    next.machine.status = rig.machine.status ∧ next.machine.ip = rig.machine.ip ∧
      next.machine.base = rig.machine.base := by
  refine h.invariant (P := fun later => later.machine.status = rig.machine.status ∧
    later.machine.ip = rig.machine.ip ∧ later.machine.base = rig.machine.base) ?_ ?_ ⟨rfl, rfl, rfl⟩
  · intro edit later hlater
    rwa [status_apply, ip_apply, base_apply]
  · rintro later ⟨hstatus, hip, hbase⟩
    have hlater : later.machine.isOver = true := by rwa [Machine.isOver, hstatus]
    rw [step_of_isOver hlater]
    exact ⟨hstatus, hip, hbase⟩

/-! ## The life cycle -/

/-- A run answers with a fault, or with a status in which it had to pause. -/
theorem ne_running_of_performs_run {answer : Except Fault Machine.Status}
    (h : Operation.run.Performs ask rig (.status answer) next) :
    answer ≠ .ok .running ∧ ∀ fault, answer ≠ .ok (.faulted fault) := by
  cases h with
  | run hrun =>
    obtain ⟨k, -, hrunning⟩ := Machine.stepsWith_of_runWith hrun
    constructor
    · exact fun h => hrunning (Machine.status_of_answer h)
    · exact fun fault h => Machine.ne_faulted_of_answer h fault rfl

/-- A step that answers `output` has put out the word in the slot. -/
theorem exists_putsNext_of_performs_step
    (h : Operation.step.Performs ask rig (.status (.ok .output)) next) :
    ∃ word, rig.machine.PutsNext word ∧ next = rig.step ask ∧ next.machine.slot = some word := by
  generalize hanswer : Answer.status (.ok .output) = answer at h
  cases h with
  | step =>
    have houtput := Machine.status_of_answer (Answer.status.inj hanswer).symm
    obtain ⟨word, hputs, hslot⟩ := Machine.exists_putsNext_of_stepWith houtput
    exact ⟨word, hputs, rfl, hslot⟩

/-- A run that answers `output` ends with a step that has put out the word in the slot. -/
theorem exists_putsNext_of_performs_run
    (h : Operation.run.Performs ask rig (.status (.ok .output)) next) :
    ∃ k word, ((step ask)^[k] rig).machine.PutsNext word ∧ next = (step ask)^[k + 1] rig ∧
      next.machine.slot = some word := by
  generalize hanswer : Answer.status (.ok .output) = answer at h
  cases h with
  | run hrun =>
    have houtput := Machine.status_of_answer (Answer.status.inj hanswer).symm
    obtain ⟨k, hsteps, -⟩ := Machine.stepsWith_of_runWith hrun
    have hnext : next = (step ask)^[k + 1] rig := by rw [iterate_step, hsteps]
    have hlast := hnext
    rw [Function.iterate_succ_apply'] at hlast
    rw [hlast] at houtput ⊢
    obtain ⟨word, hputs, hslot⟩ := Machine.exists_putsNext_of_stepWith houtput
    exact ⟨k, word, hputs, hlast.symm.trans hnext, hslot⟩

/-- **The life cycle of a machine.** Take any machine that was set up for a program and then used in
any way. It has a fault exactly if its status says so, and then the fault is that of the instruction it
stands at. If it has halted or faulted, then whatever is done later, its status, its fault and its
registers stay, and to have it execute changes nothing and answers the same as ever. A run never comes
back with the machine running, and never answers a fault as a status. And a step or a run that answers
`output` has put out the very word that is in the slot. -/
theorem life_cycle {σ : Type} {ask : σ → Option Word × σ} {program : Program} {config : Config}
    {operations : List (Operation σ)} {answers : List Answer} {rig : Rig σ}
    (h : Performs ask operations (ofProgram program config) answers rig) :
    (∀ fault, (rig.machine.status = .faulted fault ↔ rig.machine.fault? = some fault) ∧
      (rig.machine.fault? = some fault → fault.site = rig.machine.ip)) ∧
    (∀ {later : List (Operation σ)} {answers : List Answer} {next : Rig σ},
      rig.machine.isOver = true → Performs ask later rig answers next →
        next.machine.status = rig.machine.status ∧ next.machine.fault? = rig.machine.fault? ∧
        next.machine.ip = rig.machine.ip ∧ next.machine.base = rig.machine.base ∧
        (rig.machine.status = .halted → IsSpent ask next (.ok .halted) (.ok [])) ∧
        ∀ fault, rig.machine.status = .faulted fault →
          IsSpent ask next (.error fault) (.error fault)) ∧
    (∀ answer next, Operation.run.Performs ask rig (.status answer) next →
      answer ≠ .ok .running ∧ ∀ fault, answer ≠ .ok (.faulted fault)) ∧
    (∀ next, Operation.step.Performs ask rig (.status (.ok .output)) next →
      ∃ word, rig.machine.PutsNext word ∧ next = rig.step ask ∧
        next.machine.slot = some word) ∧
    ∀ next, Operation.run.Performs ask rig (.status (.ok .output)) next →
      ∃ k word, ((step ask)^[k] rig).machine.PutsNext word ∧ next = (step ask)^[k + 1] rig ∧
        next.machine.slot = some word := by
  have hsited : rig.machine.IsSited :=
    isSited_performs h (Machine.isSited_of_fault?_eq_none rfl)
  refine ⟨fun fault => ⟨Machine.fault?_eq_some_iff.symm, fun hfault => ?_⟩, ?_,
    fun _ _ => ne_running_of_performs_run, fun _ => exists_putsNext_of_performs_step,
    fun _ => exists_putsNext_of_performs_run⟩
  · exact hsited fault (Machine.fault?_eq_some_iff.mp hfault)
  · intro later answers next hover hlater
    obtain ⟨hstatus, hip, hbase⟩ := hlater.keeps_end hover
    have hfault : next.machine.fault? = rig.machine.fault? := by
      rw [Machine.fault?, Machine.fault?, hstatus]
    refine ⟨hstatus, hfault, hip, hbase, fun hhalted => ?_, fun fault hfaulted => ?_⟩
    · exact isSpent_of_halted ask (hstatus.trans hhalted)
    · exact isSpent_of_faulted ask (hstatus.trans hfaulted)

/-- A machine puts out a word, takes one from its source and faults. To write a halt instruction where
it faulted, and to queue a word, changes nothing about that. -/
theorem life_cycle_patched :
    let ask : Nat → Option Word × Nat := fun calls => (some 5, calls + 1)
    let fault : Fault := ⟨.unknownOpcode 77, 4⟩
    let start : Rig Nat := (Edit.attach 0).apply (ofProgram ⟨[104, 7, 3, 20, 77]⟩ {})
    let paused := start.step ask
    let rig := (paused.step ask).step ask
    let patched := (Edit.push 1).apply ((Edit.write 4 99).apply rig)
    Performs ask [.edit (.attach 0), .run, .step, .step] (ofProgram ⟨[104, 7, 3, 20, 77]⟩ {})
        [.done, .status (paused.machine.answer paused.machine.status),
          .status ((paused.step ask).machine.answer (paused.step ask).machine.status),
          .status (rig.machine.answer rig.machine.status)] rig ∧
      rig.machine.status = .faulted fault ∧ rig.source = some 1 ∧
      rig.machine.fault? = some fault ∧ fault.site = rig.machine.ip ∧
      patched.machine.fault? = some fault ∧ patched.machine.ip = 4 ∧
      IsSpent ask patched (.error fault) (.error fault) := by
  intro ask fault start paused rig patched
  have hrun : start.machine.runWith (consult ask) 1 start.source =
      some (paused.machine, paused.source) := if_neg (by decide +kernel)
  have hperforms : Performs ask [.edit (.attach 0), .run, .step, .step] _ _ rig :=
    .cons (.edit (.attach 0) _) (.cons (.run hrun) (.cons (.step paused) (.cons (.step _) (.nil rig))))
  have hstatus : rig.machine.status = .faulted fault := by decide +kernel
  have hsource : rig.source = some 1 := by decide +kernel
  have hip : rig.machine.ip = 4 := by decide +kernel
  have hlater : Performs ask [.edit (.write 4 99), .edit (.push 1)] rig _ patched :=
    .cons (.edit (.write 4 99) _) (.cons (.edit (.push 1) _) (.nil patched))
  obtain ⟨hfault, hend, -⟩ := life_cycle hperforms
  have hsome := (hfault fault).1.mp hstatus
  obtain ⟨-, hfault', hip', -, -, hspent⟩ := hend (by rw [Machine.isOver, hstatus]) hlater
  exact ⟨hperforms, hstatus, hsource, hsome, (hfault fault).2 hsome, hfault'.trans hsome,
    hip'.trans hip, hspent fault hstatus⟩

end Rig

end Intcode
