import Intcode.Proofs.Machine.Steps

/-!
# Taking the output

No instruction looks at the output slot. So a machine whose slot is emptied after each word goes the same
way as one whose slot is left alone, and puts out the same words (`step_of_cleared_eq`).
-/

namespace Intcode.Machine

variable {m l : Machine}

/-- The machine with its output slot empty. -/
def cleared (m : Machine) : Machine :=
  m.takeOutput.2

/-- The machine with nothing in its output slot but a word that it has just put there. -/
def stripped (m : Machine) : Machine :=
  if m.status = .output then m else m.cleared

theorem stripped_of_status (h : m.status ≠ .output) : m.stripped = m.cleared :=
  if_neg h

theorem cleared_stripped (m : Machine) : m.stripped.cleared = m.cleared := by
  rw [stripped]
  split <;> rfl

theorem emission_stripped (m : Machine) : m.stripped.emission = m.emission := by
  rw [stripped]
  split
  · rfl
  · next h =>
    have hcleared : m.cleared.status ≠ .output := h
    rw [emission, emission, if_neg h, if_neg hcleared]

/-- Machines that differ at most in their slots have one status. -/
theorem status_of_cleared_eq (h : m.cleared = l.cleared) : m.status = l.status := by
  show m.cleared.status = l.cleared.status
  rw [h]

theorem isAtRest_of_cleared_eq (h : m.cleared = l.cleared) : m.isAtRest = l.isAtRest := by
  rw [isAtRest, isAtRest, status_of_cleared_eq h]

theorem store_cleared (m : Machine) (target value : Word) (width : Nat) :
    m.cleared.store target value width = (m.store target value width).stripped := by
  have hstatus : (m.store target value width).status ≠ .output := by
    rw [status_store]
    split <;> simp
  rw [stripped_of_status hstatus, store, store]
  show (if m.config.width.fits value then _ else _) = _
  split <;> rfl

theorem rebase_cleared (m : Machine) (base : Word) (width : Nat) :
    m.cleared.rebase base width = (m.rebase base width).stripped := by
  have hstatus : (m.rebase base width).status ≠ .output := by
    rw [status_rebase]
    split <;> simp
  rw [stripped_of_status hstatus, rebase, rebase]
  show (if m.config.width.fits base then _ else _) = _
  split <;> rfl

/-- Every effect is carried out as if the slot were empty. -/
theorem commit_cleared (m : Machine) (width : Nat) (effect : Effect) :
    (m.cleared.commit noSource () width effect).1 =
      (m.commit noSource () width effect).1.stripped := by
  cases effect with
  | store target value => exact store_cleared m target value width
  | input target =>
    have hqueue : m.cleared.queue = m.queue := rfl
    cases hq : m.queue with
    | nil =>
      simp only [commit, nextInput, hqueue, hq, noSource]
      rfl
    | cons word queue =>
      simp only [commit, nextInput, hqueue, hq]
      exact store_cleared { m with queue } target word width
  | rebase base => exact rebase_cleared m base width
  | output | jump | pass | halt => rfl

/-- A step is taken as if the slot were empty. -/
theorem step_cleared (m : Machine) : m.cleared.step = m.step.stripped := by
  cases hover : m.isOver with
  | true =>
    have hstatus : m.status ≠ .output := by
      intro hs
      rw [isOver, hs] at hover
      cases hover
    rw [step_of_isOver hover, step_of_isOver (m := m.cleared) hover, stripped_of_status hstatus]
  | false =>
    have hresolved : m.cleared.resolved = m.resolved := rfl
    rw [step_eq hover, step_eq (m := m.cleared) hover, hresolved]
    rcases m.resolved with cause | ⟨i, effect⟩
    · rfl
    · exact commit_cleared m.fetched i.width effect

/-- Machines that differ at most in their slots differ at most in their slots after a step, and the step
puts out the same word. -/
theorem step_of_cleared_eq (h : m.cleared = l.cleared) :
    m.step.cleared = l.step.cleared ∧ m.step.emission = l.step.emission := by
  have hstep : m.step.stripped = l.step.stripped := by rw [← step_cleared, h, step_cleared]
  constructor
  · rw [← cleared_stripped, hstep, cleared_stripped]
  · rw [← emission_stripped, hstep, emission_stripped]

end Intcode.Machine
