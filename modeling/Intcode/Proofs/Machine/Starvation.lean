import Intcode.Proofs.Machine.Step

/-!
# Starving

A machine *starves* when its next instruction wants an input word and none is queued. Its step then
touches the cells that were read in resolving the instruction and changes nothing but the status.
Words may be queued before or after any step: for a machine that does not starve both orders come to
the same (`step_extend`), and a step that starved is made up for by the next one as if it had never
been tried (`step_extend_step`).
-/

namespace Intcode.Machine

/-- The next instruction wants an input word and there is none. -/
structure Starves (m : Machine) : Prop where
  not_isOver : m.isOver = false
  queue_eq_nil : m.queue = []
  resolved_input : ∃ i target, m.resolved = .ok (i, .input target)

@[simp] theorem extend_nil (m : Machine) : m.extend [] = m := by
  rw [extend, List.append_nil]

@[simp] theorem extend_extend (m : Machine) (ws vs : List Word) :
    (m.extend ws).extend vs = m.extend (ws ++ vs) := by
  rw [extend, extend, extend, List.append_assoc]

@[simp] theorem status_extend (m : Machine) (ws : List Word) : (m.extend ws).status = m.status := rfl

@[simp] theorem resolved_extend (m : Machine) (ws : List Word) :
    (m.extend ws).resolved = m.resolved := rfl

@[simp] theorem fetched_extend (m : Machine) (ws : List Word) :
    (m.extend ws).fetched = m.fetched.extend ws := rfl

/-! ## The step of a machine without a source -/

theorem step_of_isOver {m : Machine} (h : m.isOver = true) : m.step = m := by
  rw [step, stepWith_of_isOver h]

theorem step_eq {m : Machine} (h : m.isOver = false) :
    m.step =
      match m.resolved with
      | .error cause => m.fetched.fail cause
      | .ok (i, effect) => (m.fetched.commit noSource () i.width effect).1 := by
  rw [step, stepWith_eq h]
  rcases m.resolved with cause | ⟨i, effect⟩ <;> rfl

/-- A starving step leaves the machine waiting, with the cells touched that it read. -/
theorem step_of_starves {m : Machine} (h : m.Starves) :
    m.step = { m.fetched with status := .awaitingInput } := by
  obtain ⟨i, target, hresolved⟩ := h.resolved_input
  have hqueue : m.fetched.queue = [] := h.queue_eq_nil
  rw [step_eq h.not_isOver, hresolved]
  simp only [commit, nextInput, hqueue, noSource]

/-! ## Queueing before and after a step -/

theorem store_extend (m : Machine) (target value : Word) (width : Nat) (ws : List Word) :
    (m.extend ws).store target value width = (m.store target value width).extend ws := by
  rw [store, store]
  show (if m.config.width.fits value then _ else _) = _
  split <;> rfl

theorem rebase_extend (m : Machine) (base : Word) (width : Nat) (ws : List Word) :
    (m.extend ws).rebase base width = (m.rebase base width).extend ws := by
  rw [rebase, rebase]
  show (if m.config.width.fits base then _ else _) = _
  split <;> rfl

/-- Queueing commutes with every effect but that of an input instruction that finds no word. -/
theorem commit_extend {m : Machine} {effect : Effect} (width : Nat) (ws : List Word)
    (h : m.queue = [] → ∀ target, effect ≠ .input target) :
    ((m.extend ws).commit noSource () width effect).1 =
      (m.commit noSource () width effect).1.extend ws := by
  cases effect with
  | store target value => exact store_extend m target value width ws
  | input target =>
    cases hq : m.queue with
    | nil => exact absurd rfl (h hq target)
    | cons word queue =>
      -- the word in front is the same either way
      have hqueue : (m.extend ws).queue = word :: (queue ++ ws) := by rw [extend, hq]; rfl
      simp only [commit, nextInput, hq, hqueue]
      exact store_extend { m with queue } target word width ws
  | output value => rfl
  | jump destination => rfl
  | pass => rfl
  | rebase base => exact rebase_extend m base width ws
  | halt => rfl

/-- Unless the machine starves, words may as well be queued before its step as after. -/
theorem step_extend {m : Machine} (h : ¬ m.Starves) (ws : List Word) :
    (m.extend ws).step = m.step.extend ws := by
  cases hover : m.isOver with
  | true => rw [step_of_isOver hover, step_of_isOver (m := m.extend ws) hover]
  | false =>
    rw [step_eq hover, step_eq (m := m.extend ws) hover, resolved_extend, fetched_extend]
    rcases hresolved : m.resolved with cause | ⟨i, effect⟩
    · rfl
    · refine commit_extend i.width ws fun hq target htarget => h ⟨hover, hq, i, target, ?_⟩
      rw [hresolved, htarget]

/-! ## Trying again -/

/-- What an input instruction does with a word does not depend on the status before. -/
theorem commit_input_status (m : Machine) (status : Status) (width : Nat) (target : Word) :
    ({ m with status } : Machine).commit noSource () width (.input target) =
      m.commit noSource () width (.input target) := by
  have hstore (queue : List Word) (word : Word) :
      ({ m with queue, status } : Machine).store target word width =
        { m with queue }.store target word width := by
    rw [store, store]
    split <;> rfl
  cases hq : m.queue with
  | nil => simp only [commit, nextInput, hq, noSource]
  | cons word queue => simp only [commit, nextInput, hq, hstore]

/-- After a starving step, words that were queued are taken as if the step had not been tried. -/
theorem step_extend_step {m : Machine} (h : m.Starves) (ws : List Word) :
    (m.step.extend ws).step = (m.extend ws).step := by
  obtain ⟨i, target, hresolved⟩ := h.resolved_input
  have htried : m.step.extend ws = { m.fetched.extend ws with status := .awaitingInput } := by
    rw [step_of_starves h]
    rfl
  -- the first try has touched all that the second one reads
  have hfetched : (m.step.extend ws).fetched =
      { m.fetched.extend ws with status := .awaitingInput } := by
    rw [htried]
    exact congrArg (fun n : Machine => ({ n.extend ws with status := .awaitingInput } : Machine))
      m.fetched_fetched
  have hagain : (m.step.extend ws).resolved = .ok (i, .input target) := by
    rw [htried]
    exact m.resolved_fetched.trans hresolved
  rw [step_eq (m := m.step.extend ws) (by rw [htried]; rfl), hagain, hfetched,
    step_eq (m := m.extend ws) h.not_isOver, resolved_extend, hresolved, fetched_extend]
  exact congrArg Prod.fst (commit_input_status (m.fetched.extend ws) _ i.width target)

/-- A starving step is not made better by repeating it. -/
theorem step_step_of_starves {m : Machine} (h : m.Starves) : m.step.step = m.step := by
  have hstep := step_extend_step h []
  rwa [extend_nil, extend_nil] at hstep

/-- Only an input instruction without a word leaves the machine waiting for input. -/
theorem commit_status_eq_awaitingInput {m : Machine} {effect : Effect} {width : Nat}
    (h : (m.commit noSource () width effect).1.status = .awaitingInput) :
    m.queue = [] ∧ ∃ target, effect = .input target := by
  cases effect with
  | input target =>
    cases hq : m.queue with
    | nil => exact ⟨rfl, target, rfl⟩
    | cons word queue =>
      simp only [commit, nextInput, hq, status_store] at h
      split at h <;> cases h
  | store target value =>
    simp only [commit, status_store] at h
    split at h <;> cases h
  | rebase base =>
    simp only [commit, status_rebase] at h
    split at h <;> cases h
  | output value => cases h
  | jump destination => cases h
  | pass => cases h
  | halt => cases h

/-- Only a starving step leaves the machine waiting for input. -/
theorem starves_of_status_step {m : Machine} (h : m.step.status = .awaitingInput) : m.Starves := by
  cases hover : m.isOver with
  | true =>
    rw [step_of_isOver hover] at h
    rw [isOver, h] at hover
    cases hover
  | false =>
    rw [step_eq hover] at h
    rcases hresolved : m.resolved with cause | ⟨i, effect⟩
    · rw [hresolved] at h
      cases h
    · rw [hresolved] at h
      obtain ⟨hqueue, target, rfl⟩ := commit_status_eq_awaitingInput h
      exact ⟨hover, hqueue, i, target, hresolved⟩

end Intcode.Machine
