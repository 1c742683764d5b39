import Intcode.Proofs.Machine.Intake
import Intcode.Proofs.Machine.Rig

/-!
# Input on demand

A machine consults its source from within an input instruction. A driver can do that for it from the
outside: it has nothing attached to the machine, lets it take a step, and if the machine comes back
waiting for input, asks the source itself, queues what it is told and lets the machine try again
(`Rig.serve`). The machine cannot tell the difference.

## Shape of the proof

Whether the source is consulted in a step is whether the machine starves, and what comes of it is what
comes of a step without a source once the answer is queued (`stepWith_of_starves`). That is what the
driver does. The books of a step (`queue_eq_taken_append`) then hold of both: words are taken from the
queue first, and from the source in the order in which it gives them.
-/

namespace Intcode

namespace Machine

variable {σ : Type} {m n : Machine}

/-! ## When the source is consulted -/

/-- The source is consulted only by a machine that starves; the step of any other one is that of a
machine without a source. -/
theorem stepWith_of_not_starves (h : ¬ m.Starves) (ask : σ → Option Word × σ) (s : σ) :
    m.stepWith ask s = (m.step, s) := by
  cases hover : m.isOver with
  | true => rw [stepWith_of_isOver hover, step_of_isOver hover]
  | false =>
    rw [stepWith_eq hover, step_eq hover]
    rcases hresolved : m.resolved with cause | ⟨i, effect⟩
    · rfl
    · cases effect with
      | input target =>
        cases hq : m.queue with
        | nil => exact absurd ⟨hover, hq, i, target, hresolved⟩ h
        | cons word queue => simp only [commit, nextInput, fetched_queue, hq]
      | store | output | jump | pass | rebase | halt => rfl

/-- A machine that starves consults the source once, and its step is the one that it takes when the
answer is queued. -/
theorem stepWith_of_starves (h : m.Starves) (ask : σ → Option Word × σ) (s : σ) :
    m.stepWith ask s = ((m.extend (ask s).1.toList).step, (ask s).2) := by
  obtain ⟨i, target, hresolved⟩ := h.resolved_input
  have hqueue : m.fetched.queue = [] := h.queue_eq_nil
  have hextended (ws : List Word) : (m.extend ws).isOver = false := h.not_isOver
  rcases ha : ask s with ⟨_ | word, s'⟩
  · rw [stepWith_eq h.not_isOver, hresolved, Option.toList_none, extend_nil, step_of_starves h]
    simp only [commit, nextInput, hqueue, ha]
  · have hword : (m.extend [word]).queue = word :: [] := by rw [extend, h.queue_eq_nil, List.nil_append]
    have hsame : ({ m.fetched with queue := [] } : Machine) = m.fetched := by rw [← hqueue]
    have hstep := step_of_input_cons (m := m.extend [word]) (hextended _) hresolved hword
    rw [stepWith_eq h.not_isOver, hresolved, Option.toList_some, hstep]
    simp only [commit, nextInput, hqueue, ha]
    exact congrArg (fun n : Machine => (n.store target word i.width, s')) hsame.symm

/-! ## What an input instruction takes -/

/-- The word that a step from `m` to `n` has taken from the input: an input instruction has stored it
at its target, or has faulted because it does not fit. -/
def taken (m n : Machine) : List Word :=
  match m.isOver, m.resolved with
  | false, .ok (_, .input target) =>
    match n.status with
    | .running => [n.memory.get target]
    | .faulted ⟨.overflow word, _⟩ => [word]
    | _ => []
  | _, _ => []

theorem taken_of_input {i : Instruction} {target : Word} (hover : m.isOver = false)
    (hresolved : m.resolved = .ok (i, .input target)) :
    m.taken n =
      match n.status with
      | .running => [n.memory.get target]
      | .faulted ⟨.overflow word, _⟩ => [word]
      | _ => [] := by
  rw [taken, hover, hresolved]

/-- No other instruction takes a word. -/
theorem taken_of_not_input (h : ∀ i target, m.resolved ≠ .ok (i, .input target)) :
    m.taken n = [] := by
  rw [taken]
  split
  · next hresolved => exact absurd hresolved (h _ _)
  · rfl

/-- The books of a step: what it takes is the first word of the queue, if anything. -/
theorem queue_eq_taken_append (m : Machine) : m.queue = m.taken m.step ++ m.step.queue := by
  cases hover : m.isOver with
  | true =>
    have hnone : m.taken m.step = [] := by rw [taken, hover]
    rw [hnone, step_of_isOver hover, List.nil_append]
  | false =>
    by_cases hinput : ∃ i target, m.resolved = .ok (i, .input target)
    · obtain ⟨i, target, hresolved⟩ := hinput
      rw [taken_of_input hover hresolved]
      cases hq : m.queue with
      | nil =>
        rw [step_of_starves ⟨hover, hq, i, target, hresolved⟩]
        exact hq.symm
      | cons word queue =>
        cases hfits : m.config.width.fits word with
        | true =>
          obtain ⟨hintake, -, rfl, hstatus⟩ := step_of_input_fits hover hresolved hq hfits
          rw [intake_of_input hover hresolved, if_pos hstatus] at hintake
          rw [hstatus, hintake, List.singleton_append]
        | false =>
          obtain ⟨-, -, rfl, hstatus⟩ := step_of_input_not_fits hover hresolved hq hfits
          rw [hstatus, List.singleton_append]
    · have hnot : ∀ i target, m.resolved ≠ .ok (i, .input target) :=
        fun i target h => hinput ⟨i, target, h⟩
      rw [taken_of_not_input hnot, (step_of_not_input hover hnot).1, List.nil_append]

end Machine

namespace Rig

variable {σ : Type} (ask : σ → Option Word × σ) (m : Machine) (s : σ)

/-! ## The driver -/

/-- One step of a machine to which nothing is attached, with a driver at hand that has the source: if
the machine comes back waiting for input, the driver asks the source once, and if that yields a word,
queues it and has the machine take the step again. -/
def serve : Rig σ × σ → Rig σ × σ
  | (rig, s) =>
    let tried := rig.step ask
    if tried.machine.status = .awaitingInput then
      match ask s with
      | (some word, s) => (((Edit.push word).apply tried).step ask, s)
      | (none, s) => (tried, s)
    else (tried, s)

/-- Without a source, a step is that of the machine. -/
theorem step_detached : step ask ⟨m, none⟩ = ⟨m.step, none⟩ := by
  by_cases h : m.Starves
  · rw [step, Machine.stepWith_of_starves h]
    simp only [consult, Option.toList_none, Machine.extend_nil]
  · rw [step, Machine.stepWith_of_not_starves h]

/-- A source is left alone by a step of a machine that does not starve. -/
theorem step_of_not_starves {m : Machine} (h : ¬ m.Starves) :
    step ask ⟨m, some s⟩ = ⟨m.step, some s⟩ := by
  rw [step, Machine.stepWith_of_not_starves h]

/-- A source is consulted once by a step of a machine that starves. -/
theorem step_of_starves {m : Machine} (h : m.Starves) :
    step ask ⟨m, some s⟩ = ⟨(m.extend (ask s).1.toList).step, some (ask s).2⟩ := by
  rw [step, Machine.stepWith_of_starves h]
  rfl

/-- The driver does what the machine does by itself with the source attached. -/
theorem serve_eq :
    ∃ n t, step ask ⟨m, some s⟩ = ⟨n, some t⟩ ∧ serve ask (⟨m, none⟩, s) = (⟨n, none⟩, t) := by
  by_cases h : m.Starves
  · have hwaiting : m.step.status = .awaitingInput := by rw [Machine.step_of_starves h]
    refine ⟨_, _, step_of_starves ask s h, ?_⟩
    rw [serve]
    simp only [step_detached, if_pos hwaiting]
    rcases ask s with ⟨_ | word, t⟩
    · simp only [Option.toList_none, Machine.extend_nil]
    · -- the first try has left no trace once there is a word
      have hagain : (m.step.push word).step = (m.push word).step := Machine.step_extend_step h [word]
      simp only [Edit.apply, step_detached, hagain, Option.toList_some]
      rfl
  · have hmoving : m.step.status ≠ .awaitingInput := fun hs => h (Machine.starves_of_status_step hs)
    refine ⟨_, _, step_of_not_starves ask s h, ?_⟩
    rw [serve]
    simp only [step_detached, if_neg hmoving]

/-! ## The record of the source -/

/-- The source with a record of all answers that it has given. -/
def recording : σ × List (Option Word) → Option Word × σ × List (Option Word)
  | (s, answers) => ((ask s).1, (ask s).2, answers ++ [(ask s).1])

/-- The words that input instructions take in a number of steps. -/
def takings : Nat → Rig σ → List Word
  | 0, _ => []
  | k + 1, rig => rig.machine.taken (rig.step ask).machine ++ takings k (rig.step ask)

theorem takings_succ (k : Nat) (rig : Rig σ) :
    takings ask (k + 1) rig =
      takings ask k rig ++ ((step ask)^[k] rig).machine.taken ((step ask)^[k + 1] rig).machine := by
  induction k generalizing rig with
  | zero => exact List.append_nil _
  | succ k ih => rw [takings, ih, takings, List.append_assoc]; rfl

/-- The books of a step with a source: behind the queue come the words that the source has given. -/
theorem exists_recording_step (answers : List (Option Word)) :
    ∃ n t later, step ask ⟨m, some s⟩ = ⟨n, some t⟩ ∧
      step (recording ask) ⟨m, some (s, answers)⟩ = ⟨n, some (t, answers ++ later)⟩ ∧
      m.queue ++ later.filterMap id = m.taken n ++ n.queue := by
  by_cases h : m.Starves
  · refine ⟨_, _, [(ask s).1], step_of_starves ask s h, step_of_starves (recording ask) _ h, ?_⟩
    have hgiven : [(ask s).1].filterMap id = (ask s).1.toList := by
      cases (ask s).1 <;> rfl
    rw [hgiven]
    exact (m.extend (ask s).1.toList).queue_eq_taken_append
  · refine ⟨_, _, [], step_of_not_starves ask s h, ?_, ?_⟩
    · rw [List.append_nil]
      exact step_of_not_starves (recording ask) _ h
    · rw [List.filterMap_nil, List.append_nil]
      exact m.queue_eq_taken_append

/-- The source of a machine that starves gives one more answer, and that of any other one none. -/
theorem recording_step_source (t : σ) (answers : List (Option Word)) :
    (m.Starves → (step (recording ask) ⟨m, some (t, answers)⟩).source =
      some ((ask t).2, answers ++ [(ask t).1])) ∧
    (¬ m.Starves → (step (recording ask) ⟨m, some (t, answers)⟩).source = some (t, answers)) :=
  ⟨fun h => by rw [step_of_starves (recording ask) _ h]; rfl,
    fun h => by rw [step_of_not_starves (recording ask) _ h]⟩

/-- The machine with the source, the one with the driver and the one with the record stay together. -/
theorem exists_recording_run (k : Nat) :
    ∃ n t answers, (step ask)^[k] ⟨m, some s⟩ = ⟨n, some t⟩ ∧
      (serve ask)^[k] (⟨m, none⟩, s) = (⟨n, none⟩, t) ∧
      (step (recording ask))^[k] ⟨m, some (s, [])⟩ = ⟨n, some (t, answers)⟩ ∧
      m.queue ++ answers.filterMap id = takings ask k ⟨m, some s⟩ ++ n.queue := by
  induction k with
  | zero => exact ⟨m, s, [], rfl, rfl, rfl, List.append_nil _⟩
  | succ k ih =>
    obtain ⟨n, t, answers, hrig, hserve, hrecord, hbooks⟩ := ih
    obtain ⟨l, u, later, hstep, hrecorded, htaken⟩ := exists_recording_step ask n t answers
    obtain ⟨l', u', hstep', hserved⟩ := serve_eq ask n t
    obtain ⟨rfl, rfl⟩ : l' = l ∧ u' = u := by
      rw [hstep] at hstep'
      cases hstep'
      exact ⟨rfl, rfl⟩
    have hnext : (step ask)^[k + 1] ⟨m, some s⟩ = ⟨l', some u'⟩ := by
      rw [Function.iterate_succ_apply', hrig, hstep]
    refine ⟨l', u', answers ++ later, hnext, ?_, ?_, ?_⟩
    · rw [Function.iterate_succ_apply', hserve, hserved]
    · rw [Function.iterate_succ_apply', hrecord, hrecorded]
    · rw [takings_succ, hrig, hnext, List.filterMap_append, ← List.append_assoc, hbooks,
        List.append_assoc, htaken, List.append_assoc]

/-- **A source is input on demand.** Take any machine with any source, and beside it a copy to which
nothing is attached, with a driver that asks the source whenever the copy waits for input, queues the
answer and has it try again. After any number of steps the machine and the copy are the same, and so are
the source and the driver's. The source has been asked once for each input instruction that knew its
target and found the queue empty, and never otherwise. And the words that were in the queue, followed by
those that the source has given, in order, are the words that input instructions have taken, followed
by those that are in the queue now. -/
theorem source_is_input_on_demand (k : Nat) :
    let rig : Rig σ := ⟨m, some s⟩
    let n := ((step ask)^[k] rig).machine
    ∃ t answers,
      (step ask)^[k] rig = ⟨n, some t⟩ ∧
      (serve ask)^[k] (Edit.fork.apply rig, s) = (⟨n, none⟩, t) ∧
      (step (recording ask))^[k] ⟨m, some (s, [])⟩ = ⟨n, some (t, answers)⟩ ∧
      m.queue ++ answers.filterMap id = takings ask k rig ++ n.queue ∧
      (n.Starves → (step (recording ask) ⟨n, some (t, answers)⟩).source =
        some ((ask t).2, answers ++ [(ask t).1])) ∧
      (¬ n.Starves → (step (recording ask) ⟨n, some (t, answers)⟩).source = some (t, answers)) := by
  intro rig n
  obtain ⟨l, t, answers, hrig, hserve, hrecord, hbooks⟩ := exists_recording_run ask m s k
  have hlast : n = l := congrArg Rig.machine hrig
  rw [hlast]
  exact ⟨t, answers, hrig, hserve, hrecord, hbooks, recording_step_source ask l t answers⟩

/-- A queued 5, and behind it a source that has nothing at first, then 10, then 20. The first of three
input instructions takes the 5, and the second one asks twice. -/
theorem source_is_input_on_demand_after_hesitation :
    let ask (s : Nat) : Option Word × Nat := (if s = 0 then none else some (10 * s), s + 1)
    let m : Machine := (Machine.ofProgram ⟨[3, 20, 3, 21, 3, 22, 99]⟩ {}).push 5
    let rig : Rig Nat := ⟨m, some 0⟩
    let n := ((step ask)^[3] rig).machine
    let last := ((step ask)^[5] rig).machine
    n.Starves ∧ ¬ last.Starves ∧
      (serve ask)^[3] (⟨m, none⟩, 0) = (⟨n, none⟩, 2) ∧
      takings ask 3 rig = [5, 10] ∧
      (step (recording ask) ⟨n, some (2, [none, some 10])⟩).source =
        some (3, [none, some 10, some 20]) ∧
      (step (recording ask) ⟨last, some (3, [none, some 10, some 20])⟩).source =
        some (3, [none, some 10, some 20]) := by
  intro ask m rig n last
  have hstarves : n.Starves := Machine.starves_of_status_step (by decide +kernel)
  have hover : last.isOver = true := by decide +kernel
  have hnot : ¬ last.Starves := fun h => Bool.noConfusion (hover.symm.trans h.not_isOver)
  have hrecorded : ((step (recording ask))^[3] ⟨m, some (0, [])⟩).source =
      some (2, [none, some 10]) := by decide +kernel
  have hrecorded' : ((step (recording ask))^[5] ⟨m, some (0, [])⟩).source =
      some (3, [none, some 10, some 20]) := by decide +kernel
  have hqueue : ((step ask)^[3] ⟨m, some 0⟩).machine.queue = [] := by decide +kernel
  have hgiven : m.queue ++ [none, some 10].filterMap id = [5, 10] := by decide +kernel
  obtain ⟨t, answers, -, hserve, hrecord, hbooks, hasked, -⟩ := source_is_input_on_demand ask m 0 3
  obtain ⟨t', answers', -, -, hrecord', -, -, hleft⟩ := source_is_input_on_demand ask m 0 5
  obtain ⟨rfl, rfl⟩ : t = 2 ∧ answers = [none, some 10] :=
    Prod.mk.inj (Option.some.inj ((congrArg Rig.source hrecord).symm.trans hrecorded))
  obtain ⟨rfl, rfl⟩ : t' = 3 ∧ answers' = [none, some 10, some 20] :=
    Prod.mk.inj (Option.some.inj ((congrArg Rig.source hrecord').symm.trans hrecorded'))
  rw [hgiven, hqueue, List.append_nil] at hbooks
  exact ⟨hstarves, hnot, hserve, hbooks.symm, hasked hstarves, hleft hnot⟩

end Rig

end Intcode
