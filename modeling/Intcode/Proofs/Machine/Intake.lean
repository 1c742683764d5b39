import Intcode.Proofs.Machine.Resumption
import Intcode.Proofs.Machine.Width

/-!
# What becomes of the input

Words that are queued come to be stored by input instructions, in the order in which they were queued.
An instruction that cannot be resolved leaves the queue alone, and so does one that finds it empty. But
an input instruction takes its word before the word is measured: on a machine of 64 bits, a word that
does not fit is taken from the queue, the instruction faults, and the word is nowhere any more.

## Shape of the proof

`step_cases` lists what a step can do to the input: nothing, store the first word, or take the first
word and fault with it. The books balance in each case (`swallowed_append_queue`), and so they do for
any number of steps with words queued in between (`swallowed_append_queue_after`). Calls that step, run
and drain a machine are such steps (`Returns.exists_after`).
-/

namespace Intcode.Machine

variable {m n : Machine}

/-! ## Accounts -/

/-- The words that an event queues. -/
def Event.words : Event → List Word
  | queue words => words
  | step => []

/-- What a machine without a source becomes while events happen to it. -/
def after (m : Machine) (events : List Event) : Machine :=
  (m.play noSource events ()).1

theorem after_queue (m : Machine) (words : List Word) (events : List Event) :
    m.after (.queue words :: events) = (m.extend words).after events := rfl

theorem after_step (m : Machine) (events : List Event) :
    m.after (.step :: events) = m.step.after events := rfl

/-- The word that the next step stores from the input: should it complete an input instruction, the one
that is at the target then. -/
def intake (m : Machine) : List Word :=
  match m.isOver, m.resolved with
  | false, .ok (_, .input target) =>
    if m.step.status = .running then [m.step.memory.get target] else []
  | _, _ => []

/-- The words that are stored from the input while events happen to a machine without a source. -/
def intakes : List Event → Machine → List Word
  | [], _ => []
  | .queue words :: events, m => intakes events (m.extend words)
  | .step :: events, m => m.intake ++ intakes events m.step

/-- The word that an input instruction has faulted with. -/
def swallowed (m : Machine) : List Word :=
  match m.status, m.resolved with
  | .faulted ⟨.overflow word, _⟩, .ok (_, .input _) => [word]
  | _, _ => []

theorem swallowed_of_fault?_eq_none (h : m.fault? = none) : m.swallowed = [] := by
  cases hs : m.status with
  | faulted fault =>
    rw [fault?, hs] at h
    cases h
  | running | output | awaitingInput | halted => rw [swallowed, hs]

theorem fault?_of_not_isOver (h : m.isOver = false) : m.fault? = none := by
  rcases status_of_not_isOver h with hs | hs | hs <;> rw [fault?, hs]

/-- No other instruction swallows a word. -/
theorem swallowed_of_not_input (h : ∀ i target, m.resolved ≠ .ok (i, .input target)) :
    m.swallowed = [] := by
  rw [swallowed]
  split
  · next hresolved => exact absurd hresolved (h _ _)
  · rfl

/-- Nor does it store one from the input. -/
theorem intake_of_not_input (h : ∀ i target, m.resolved ≠ .ok (i, .input target)) :
    m.intake = [] := by
  rw [intake]
  split
  · next hresolved => exact absurd hresolved (h _ _)
  · rfl

/-! ## What a step does to the input -/

/-- An effect that is not to take input leaves the queue alone, and faults without having done
anything. -/
theorem commit_of_not_input {effect : Effect} (width : Nat) (h : ∀ target, effect ≠ .input target) :
    (m.commit noSource () width effect).1.queue = m.queue ∧
      ((m.commit noSource () width effect).1.fault? = none ∨
        ∃ cause, (m.commit noSource () width effect).1 = m.fail cause) := by
  cases effect with
  | store target value =>
    cases hfits : m.config.width.fits value with
    | false =>
      simp only [commit, store_of_not_fits hfits]
      exact ⟨rfl, Or.inr ⟨_, rfl⟩⟩
    | true =>
      simp only [commit, store_of_fits hfits]
      exact ⟨rfl, Or.inl rfl⟩
  | input target => exact absurd rfl (h target)
  | rebase base =>
    cases hfits : m.config.width.fits base with
    | false =>
      simp only [commit, rebase_of_not_fits hfits]
      exact ⟨rfl, Or.inr ⟨_, rfl⟩⟩
    | true =>
      simp only [commit, rebase_of_fits hfits]
      exact ⟨rfl, Or.inl rfl⟩
  | output | jump | pass | halt => exact ⟨rfl, Or.inl rfl⟩

/-- A step that is not an input instruction leaves the queue alone and swallows nothing. -/
theorem step_of_not_input (hover : m.isOver = false)
    (h : ∀ i target, m.resolved ≠ .ok (i, .input target)) :
    m.step.queue = m.queue ∧ m.step.swallowed = [] := by
  -- after a fault, the same instruction is to be resolved as before
  have hfail (cause : Fault.Cause) : (m.fetched.fail cause).swallowed = [] :=
    swallowed_of_not_input (m := m.fetched.fail cause) fun i target heq =>
      h i target (m.resolved_fetched.symm.trans heq)
  rw [step_eq hover]
  rcases hresolved : m.resolved with cause | ⟨i, effect⟩
  · exact ⟨rfl, hfail cause⟩
  · have heffect (target : Word) : effect ≠ .input target := by
      rintro rfl
      exact h i target hresolved
    obtain ⟨hqueue, hnone | ⟨cause, heq⟩⟩ := commit_of_not_input (m := m.fetched) i.width heffect
    · exact ⟨hqueue, swallowed_of_fault?_eq_none hnone⟩
    · exact ⟨hqueue, by simp only [heq, hfail]⟩

section Input

variable {i : Instruction} {target word : Word} {queue : List Word}

theorem intake_of_input (hover : m.isOver = false) (hresolved : m.resolved = .ok (i, .input target)) :
    m.intake = if m.step.status = .running then [m.step.memory.get target] else [] := by
  rw [intake, hover, hresolved]

/-- An input instruction that finds no word does nothing to the input. -/
theorem step_of_input_nil (hover : m.isOver = false)
    (hresolved : m.resolved = .ok (i, .input target)) (hq : m.queue = []) :
    m.intake = [] ∧ m.step.swallowed = [] ∧ m.step.queue = m.queue := by
  have hstep := step_of_starves ⟨hover, hq, i, target, hresolved⟩
  rw [intake_of_input hover hresolved, hstep]
  exact ⟨rfl, swallowed_of_fault?_eq_none rfl, rfl⟩

/-- An input instruction takes the first word from the queue before it stores it. -/
theorem step_of_input_cons (hover : m.isOver = false)
    (hresolved : m.resolved = .ok (i, .input target)) (hq : m.queue = word :: queue) :
    m.step = ({ m.fetched with queue } : Machine).store target word i.width := by
  have hword : (m.nextInput noSource ()).1 = some word := by rw [nextInput, hq]
  rw [step, stepWith_of_input hover hresolved hword, hq, List.tail_cons]

/-- A word that fits is stored. -/
theorem step_of_input_fits (hover : m.isOver = false)
    (hresolved : m.resolved = .ok (i, .input target)) (hq : m.queue = word :: queue)
    (hfits : m.config.width.fits word = true) :
    m.intake = [word] ∧ m.step.swallowed = [] ∧ m.step.queue = queue ∧ m.step.status = .running := by
  have hstep := step_of_input_cons hover hresolved hq
  rw [store_of_fits (m := { m.fetched with queue }) hfits] at hstep
  rw [intake_of_input hover hresolved, hstep]
  refine ⟨?_, swallowed_of_fault?_eq_none rfl, rfl, rfl⟩
  simp [advance]

/-- A word that does not fit is gone: the instruction faults, and would take the next word instead. -/
theorem step_of_input_not_fits (hover : m.isOver = false)
    (hresolved : m.resolved = .ok (i, .input target)) (hq : m.queue = word :: queue)
    (hfits : m.config.width.fits word = false) :
    m.intake = [] ∧ m.step.swallowed = [word] ∧ m.step.queue = queue ∧
      m.step.status = .faulted ⟨.overflow word, m.ip⟩ := by
  have hstep := step_of_input_cons hover hresolved hq
  rw [store_of_not_fits (m := { m.fetched with queue }) hfits] at hstep
  have hstatus : m.step.status = .faulted ⟨.overflow word, m.ip⟩ := by
    rw [hstep]
    rfl
  have hagain : m.step.resolved = .ok (i, .input target) := by
    rw [hstep]
    exact m.resolved_fetched.trans hresolved
  refine ⟨?_, ?_, ?_, hstatus⟩
  · rw [intake_of_input hover hresolved, hstatus]
    rfl
  · rw [swallowed, hstatus, hagain]
  · rw [hstep]
    rfl

end Input

/-- A step leaves the queue alone, or stores the first word of it, or takes the first word of it and
faults because the word does not fit. -/
theorem step_cases (hover : m.isOver = false) :
    (m.intake = [] ∧ m.step.swallowed = [] ∧ m.step.queue = m.queue) ∨
    (∃ word, m.intake = [word] ∧ m.step.swallowed = [] ∧ m.queue = word :: m.step.queue ∧
      m.step.status = .running) ∨
    ∃ i target word, m.resolved = .ok (i, .input target) ∧ m.intake = [] ∧
      m.step.swallowed = [word] ∧ m.queue = word :: m.step.queue ∧
      m.config.width.fits word = false ∧ m.step.status = .faulted ⟨.overflow word, m.ip⟩ := by
  by_cases hinput : ∃ i target, m.resolved = .ok (i, .input target)
  · obtain ⟨i, target, hresolved⟩ := hinput
    cases hq : m.queue with
    | nil => exact Or.inl (hq ▸ step_of_input_nil hover hresolved hq)
    | cons word queue =>
      cases hfits : m.config.width.fits word with
      | true =>
        obtain ⟨hintake, hswallowed, rfl, hstatus⟩ := step_of_input_fits hover hresolved hq hfits
        exact Or.inr (Or.inl ⟨word, hintake, hswallowed, rfl, hstatus⟩)
      | false =>
        obtain ⟨hintake, hswallowed, rfl, hstatus⟩ := step_of_input_not_fits hover hresolved hq hfits
        exact Or.inr (Or.inr ⟨i, target, word, hresolved, hintake, hswallowed, rfl, hfits, hstatus⟩)
  · have hnot : ∀ i target, m.resolved ≠ .ok (i, .input target) :=
      fun i target h => hinput ⟨i, target, h⟩
    obtain ⟨hqueue, hswallowed⟩ := step_of_not_input hover hnot
    exact Or.inl ⟨intake_of_not_input hnot, hswallowed, hqueue⟩

/-- The books of a step balance. -/
theorem swallowed_append_queue (m : Machine) :
    m.swallowed ++ m.queue = m.intake ++ (m.step.swallowed ++ m.step.queue) := by
  cases hover : m.isOver with
  | true =>
    have hintake : m.intake = [] := by rw [intake, hover]
    rw [hintake, step_of_isOver hover, List.nil_append]
  | false =>
    rw [swallowed_of_fault?_eq_none (fault?_of_not_isOver hover), List.nil_append]
    rcases step_cases hover with ⟨hintake, hswallowed, hqueue⟩ |
        ⟨word, hintake, hswallowed, hqueue, -⟩ | ⟨-, -, word, -, hintake, hswallowed, hqueue, -⟩
    · rw [hintake, hswallowed, hqueue]
      rfl
    · rw [hintake, hswallowed, hqueue]
      rfl
    · rw [hintake, hswallowed, hqueue]
      rfl

/-! ## What becomes of the input over time -/

/-- The books balance at any time. -/
theorem swallowed_append_queue_after (events : List Event) (m : Machine) :
    m.swallowed ++ m.queue ++ events.flatMap Event.words =
      intakes events m ++ ((m.after events).swallowed ++ (m.after events).queue) := by
  induction events generalizing m with
  | nil => exact List.append_nil _
  | cons event events ih =>
    cases event with
    | queue words =>
      have hqueue : (m.extend words).swallowed ++ (m.extend words).queue =
          m.swallowed ++ m.queue ++ words := (List.append_assoc _ _ _).symm
      rw [after_queue, intakes, ← ih, hqueue, List.flatMap_cons, ← List.append_assoc]
      rfl
    | step =>
      rw [after_step, intakes, List.append_assoc m.intake, ← ih, swallowed_append_queue,
        List.flatMap_cons, List.append_assoc m.intake]
      rfl

/-- Only words that do not fit are ever swallowed. -/
theorem fits_of_mem_swallowed_after {word : Word} (events : List Event)
    (hfresh : ∀ word ∈ m.swallowed, m.config.width.fits word = false)
    (h : word ∈ (m.after events).swallowed) : m.config.width.fits word = false := by
  induction events generalizing m with
  | nil => exact hfresh word h
  | cons event events ih =>
    cases event with
    | queue words => exact ih (m := m.extend words) hfresh h
    | step =>
      have hconfig : m.step.config = m.config := config_stepWith noSource m ()
      have hnext : ∀ word ∈ m.step.swallowed, m.step.config.width.fits word = false := by
        intro word hword
        rw [hconfig]
        cases hover : m.isOver with
        | true => exact hfresh word (step_of_isOver hover ▸ hword)
        | false =>
          rcases step_cases hover with ⟨-, hswallowed, -⟩ | ⟨-, -, hswallowed, -⟩ |
              ⟨-, -, refused, -, -, hswallowed, -, hfits, -⟩
          · rw [hswallowed] at hword
            cases hword
          · rw [hswallowed] at hword
            cases hword
          · rw [hswallowed, List.mem_singleton] at hword
            exact hword ▸ hfits
      exact hconfig ▸ ih hnext h

/-! ## Calls -/

theorem after_append (before after : List Event) (m : Machine) :
    m.after (before ++ after) = (m.after before).after after :=
  congrArg Prod.fst (play_append noSource before after m ())

theorem after_replicate_step (k : Nat) (m : Machine) :
    m.after (List.replicate k .step) = step^[k] m := by
  induction k generalizing m with
  | zero => rfl
  | succ k ih => rw [List.replicate_succ, after_step, ih, Function.iterate_succ_apply]

/-- Whatever calls do, events that queue the same words do. -/
theorem Returns.exists_after {calls : List Call} {out : List Word} (h : Returns calls m out n) :
    ∃ events, m.after events = n ∧ events.flatMap Event.words = calls.flatMap Call.words := by
  induction h with
  | nil m => exact ⟨[], rfl, rfl⟩
  | @cons call calls m l n out rest hcall _ ih =>
    obtain ⟨events, rfl, hwords⟩ := ih
    rcases hcall.queues_or_steps with ⟨-, -, rfl⟩ | ⟨-, hnone, k, -, rfl, -⟩
    · refine ⟨.queue call.words :: events, after_queue _ _ _, ?_⟩
      rw [List.flatMap_cons, List.flatMap_cons, hwords, Event.words]
    · refine ⟨List.replicate k .step ++ events, ?_, ?_⟩
      · rw [after_append, after_replicate_step]
      · rw [List.flatMap_append, List.flatMap_cons, hwords, hnone]
        simp [List.flatMap_replicate, Event.words]

/-- **What becomes of the input.** Set up a machine for a program, with nothing but its queue for input,
queue words and let it take steps in any order. The words that were queued are those that input
instructions have stored, in order, then the word that was swallowed, if there is one, and then those
that still wait. A word is swallowed only by a fault, and only if the machine has 64 bits and the word is
not in their range. A step that faults leaves the queue as it is unless it swallows the first word of it
in this way. And whatever calls that push, step, run and drain do, is done by words that are queued and
steps in some order. -/
theorem queued_words_are_stored_or_wait (program : Program) (config : Config) :
    (∀ events : List Event,
      let m := ofProgram program config
      let n := m.after events
      events.flatMap Event.words = intakes events m ++ (n.swallowed ++ n.queue) ∧
      (∀ word ∈ n.swallowed, config.width = .bits64 ∧ ¬ word.InRange) ∧
      (n.fault? = none → n.swallowed = []) ∧
      ∀ fault, n.isOver = false → n.step.status = .faulted fault →
        n.step.queue = n.queue ∨
        ∃ i target word, n.resolved = .ok (i, .input target) ∧ n.queue = word :: n.step.queue ∧
          config.width = .bits64 ∧ ¬ word.InRange ∧ fault = ⟨.overflow word, n.ip⟩) ∧
    ∀ {calls : List Call} {out : List Word} {n : Machine},
      Returns calls (ofProgram program config) out n →
        ∃ events, (ofProgram program config).after events = n ∧
          events.flatMap Event.words = calls.flatMap Call.words := by
  refine ⟨fun events => ?_, Returns.exists_after⟩
  intro m n
  have hfresh : m.swallowed = [] := swallowed_of_fault?_eq_none rfl
  have hconfig : n.config = config := config_play noSource events m ()
  have hbalance := swallowed_append_queue_after events m
  rw [hfresh] at hbalance
  refine ⟨hbalance, fun word hword => ?_, swallowed_of_fault?_eq_none, fun fault hover hfault => ?_⟩
  · have hnone : ∀ word ∈ m.swallowed, m.config.width.fits word = false := by
      rw [hfresh]
      exact fun word hmem => absurd hmem List.not_mem_nil
    exact fits_eq_false_iff.mp (fits_of_mem_swallowed_after events hnone hword)
  · rcases step_cases hover with ⟨-, -, hqueue⟩ | ⟨-, -, -, -, hrunning⟩ |
        ⟨i, target, word, hresolved, -, -, hqueue, hfits, hstatus⟩
    · exact Or.inl hqueue
    · cases hrunning.symm.trans hfault
    · obtain ⟨hwidth, hrange⟩ := fits_eq_false_iff.mp hfits
      refine Or.inr ⟨i, target, word, hresolved, hqueue, hconfig ▸ hwidth, hrange, ?_⟩
      exact Status.faulted.inj (hfault.symm.trans hstatus)

/-- Of three words that were queued, the first is stored, the second swallowed, and the third waits. -/
theorem queued_words_are_stored_or_wait_three :
    let program : Program := ⟨[3, 50, 3, 51, 99]⟩
    let config : Config := { width := .bits64 }
    let events : List Event := [.step, .queue [7, 9223372036854775808, 8], .step]
    let faulting : List Event := events ++ [.step]
    ((ofProgram program config).after events).step.status =
        .faulted ⟨.overflow 9223372036854775808, 2⟩ ∧
      faulting.flatMap Event.words = [7, 9223372036854775808, 8] ∧
      intakes faulting (ofProgram program config) = [7] ∧
      ((ofProgram program config).after faulting).swallowed = [9223372036854775808] ∧
      ((ofProgram program config).after faulting).queue = [8] ∧
      faulting.flatMap Event.words =
        intakes faulting (ofProgram program config) ++
          (((ofProgram program config).after faulting).swallowed ++
            ((ofProgram program config).after faulting).queue) ∧
      ¬ (9223372036854775808 : Word).InRange ∧
      ∃ word, ((ofProgram program config).after events).queue =
          word :: ((ofProgram program config).after events).step.queue ∧ ¬ word.InRange := by
  intro program config events faulting
  have hover : ((ofProgram program config).after events).isOver = false := by decide +kernel
  have hfault : ((ofProgram program config).after events).step.status =
      .faulted ⟨.overflow 9223372036854775808, 2⟩ := by decide +kernel
  have hintakes : intakes faulting (ofProgram program config) = [7] := by decide +kernel
  have hswallowed : ((ofProgram program config).after faulting).swallowed =
      [9223372036854775808] := by decide +kernel
  have hqueue : ((ofProgram program config).after faulting).queue = [8] := by decide +kernel
  have hchanged : ((ofProgram program config).after events).step.queue ≠
      ((ofProgram program config).after events).queue := by decide +kernel
  obtain ⟨hevents, -⟩ := queued_words_are_stored_or_wait program config
  obtain ⟨hbalance, hmem, -, -⟩ := hevents faulting
  obtain ⟨-, -, -, hstep⟩ := hevents events
  obtain ⟨-, hrange⟩ := hmem 9223372036854775808 (hswallowed ▸ List.mem_singleton_self _)
  obtain ⟨i, target, word, -, htaken, -, hword, -⟩ := (hstep _ hover hfault).resolve_left hchanged
  exact ⟨hfault, rfl, hintakes, hswallowed, hqueue, hbalance, hrange, word, htaken, hword⟩

/-- A word that was pushed is neither stored nor waiting after the step that faults for it. -/
theorem overflow_swallows_input :
    let m := ofProgram ⟨[3, 0, 99]⟩ { width := .bits64 }
    let word : Word := 9223372036854775808
    let n := (m.push word).step
    Returns [.push word, .step] m [] n ∧ n.status = .faulted ⟨.overflow word, 0⟩ ∧
      [.queue [word], .step].flatMap Event.words ≠
        intakes [.queue [word], .step] m ++ (m.after [.queue [word], .step]).queue ∧
      n.queue ≠ (m.push word).queue := by
  intro m word n
  have hreturns : Returns [.push word, .step] m ([] ++ (n.emission ++ [])) n :=
    .cons (.push m word) (.cons (.step _) (.nil n))
  have hsilent : [] ++ (n.emission ++ []) = [] := by decide +kernel
  exact ⟨hsilent ▸ hreturns, by decide +kernel, by decide +kernel, by decide +kernel⟩

end Intcode.Machine
