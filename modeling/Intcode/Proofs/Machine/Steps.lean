import Mathlib.Logic.Function.Iterate
import Intcode.Machine.Run
import Intcode.Proofs.Machine.Starvation

/-!
# Runs as sequences of steps

Running and draining bound the number of instructions and answer `none` when the bound is used up.
Here both are tied to iterated steps. A step that ends in the status `output` *emits* the word in the
output slot; `Machine.emissions k m` lists what the next `k` steps emit.

A machine is *at rest* when it waits for input or its execution is over. Draining is stepping until
then, so what it returns is said by `Machine.Settles`, which counts steps and knows no bound
(`exists_drain_iff`), and no bound suffices for it exactly if no step brings the machine to rest
(`drain_eq_none_iff`).
-/

namespace Intcode.Machine

/-! ## Emitted words -/

/-- The word that the machine has just put out. -/
def emission (m : Machine) : List Word :=
  if m.status = .output then m.slot.toList else []

theorem length_emission_le (m : Machine) : m.emission.length ≤ 1 := by
  rw [emission]
  split
  · cases m.slot <;> simp
  · simp

/-- The words that the next steps put out, in order. -/
def emissions : Nat → Machine → List Word
  | 0, _ => []
  | k + 1, m => m.step.emission ++ emissions k m.step

/-- Whether the machine waits for input or its execution is over. -/
def isAtRest (m : Machine) : Bool :=
  match m.status with
  | .awaitingInput | .halted | .faulted _ => true
  | .running | .output => false

theorem isAtRest_of_isOver {m : Machine} (h : m.isOver = true) : m.isAtRest = true := by
  cases hs : m.status <;> simp_all [isOver, isAtRest]

theorem isAtRest_of_awaitingInput {m : Machine} (h : m.status = .awaitingInput) :
    m.isAtRest = true := by
  rw [isAtRest, h]

/-- A machine at rest has one of three statuses. -/
theorem status_of_isAtRest {m : Machine} (h : m.isAtRest = true) :
    m.status = .awaitingInput ∨ m.status = .halted ∨ ∃ fault, m.status = .faulted fault := by
  cases hs : m.status <;> simp_all [isAtRest]

/-- A machine at rest has not just put out a word. -/
theorem emission_of_isAtRest {m : Machine} (h : m.isAtRest = true) : m.emission = [] := by
  cases hs : m.status <;> simp_all [emission, isAtRest]

/-! ## Running -/

/-- A run goes on for as long as its steps leave the machine running. -/
theorem run_succ (m : Machine) (fuel : Nat) :
    m.run (fuel + 1) = if m.step.status = .running then m.step.run fuel else some m.step := by
  rw [run, runWith]
  show Option.map _ (if m.step.status = .running then _ else _) = _
  split <;> rfl

/-- A run is some number of steps, of which only the last can have put out a word. -/
theorem steps_of_run {m n : Machine} {fuel : Nat} (h : m.run fuel = some n) :
    ∃ k, n = step^[k + 1] m ∧ n.emission = emissions (k + 1) m := by
  induction fuel generalizing m with
  | zero => cases h
  | succ fuel ih =>
    rw [run_succ] at h
    split at h
    · next hrunning =>
      obtain ⟨k, hn, hemission⟩ := ih h
      have hsilent : m.step.emission = [] := by simp [emission, hrunning]
      refine ⟨k + 1, hn, ?_⟩
      rw [emissions, hsilent, List.nil_append, hemission]
    · cases h
      exact ⟨0, rfl, (List.append_nil _).symm⟩

/-! ## Draining -/

/-- Draining puts what is collected later in front of what was collected before. -/
theorem drainOnto_eq {σ : Type} (ask : σ → Option Word × σ) (outputs : List Word) (fuel : Nat)
    (m : Machine) (s : σ) :
    drainOnto ask outputs fuel m s =
      (drainOnto ask [] fuel m s).map fun r => (r.1 ++ outputs, r.2) := by
  induction fuel generalizing outputs m s with
  | zero => rfl
  | succ fuel ih =>
    rw [drainOnto, drainOnto]
    rcases m.stepWith ask s with ⟨n, t⟩
    cases hs : n.status with
    | running =>
      simp only [hs]
      exact ih _ _ _
    | output =>
      simp only [hs]
      rw [ih, ih (_ ++ []), Option.map_map]
      simp only [Function.comp_def, List.append_assoc, List.nil_append]
    | awaitingInput => simp only [hs, Option.map_some, List.nil_append]
    | halted => simp only [hs, Option.map_some, List.nil_append]
    | faulted fault => simp only [hs, Option.map_some, List.nil_append]

/-- Draining goes on until the machine is at rest, and collects what each step emits. -/
theorem drain_succ (m : Machine) (fuel : Nat) :
    m.drain (fuel + 1) =
      if m.step.isAtRest then some ([], m.step)
      else (m.step.drain fuel).map fun r => (m.step.emission ++ r.1, r.2) := by
  have hstep : m.stepWith noSource () = (m.step, ()) := rfl
  have hreverse : m.step.slot.toList.reverse = m.step.slot.toList := by
    cases m.step.slot <;> rfl
  cases hs : m.step.status with
  | running =>
    simp [drain, drainWith, drainOnto, hstep, hs, isAtRest, emission, Function.comp_def]
  | output =>
    have honto := drainOnto_eq noSource m.step.slot.toList fuel m.step ()
    simp [drain, drainWith, drainOnto, hstep, hs, isAtRest, emission, honto, hreverse,
      Function.comp_def]
  | awaitingInput => simp [drain, drainWith, drainOnto, hstep, hs, isAtRest]
  | halted => simp [drain, drainWith, drainOnto, hstep, hs, isAtRest]
  | faulted fault => simp [drain, drainWith, drainOnto, hstep, hs, isAtRest]

/-! ## Settling -/

/-- A step that brings the machine to rest is the last that changes anything. -/
theorem step_step_of_isAtRest {m : Machine} (h : m.step.isAtRest = true) : m.step.step = m.step := by
  cases hs : m.step.status with
  | running => rw [isAtRest, hs] at h; cases h
  | output => rw [isAtRest, hs] at h; cases h
  | awaitingInput => exact step_step_of_starves (starves_of_status_step hs)
  | halted => exact step_of_isOver (by rw [isOver, hs])
  | faulted fault => exact step_of_isOver (by rw [isOver, hs])

/-- Some number of steps brings the machine to rest as `n`, for good, and puts out the words `out` on
the way. -/
def Settles (m : Machine) (out : List Word) (n : Machine) : Prop :=
  ∃ k, n = step^[k] m ∧ out = emissions k m ∧ n.isAtRest = true ∧ n.step = n

theorem settles_self {m : Machine} (hrest : m.isAtRest = true) (hstep : m.step = m) :
    m.Settles [] m :=
  ⟨0, rfl, rfl, hrest, hstep⟩

/-- A machine settles as it does after its next step, which may put out a word before. -/
theorem settles_iff_step {m n : Machine} {out : List Word} :
    m.Settles out n ↔ ∃ rest, out = m.step.emission ++ rest ∧ m.step.Settles rest n := by
  constructor
  · rintro ⟨k, hn, hout, hrest, hstep⟩
    cases k with
    | zero =>
      have hm : n = m := hn
      subst hm
      refine ⟨[], ?_, ?_⟩
      · rw [hstep, emission_of_isAtRest hrest]
        exact hout
      · rw [hstep]
        exact settles_self hrest hstep
    | succ k => exact ⟨emissions k m.step, hout, k, hn, rfl, hrest, hstep⟩
  · rintro ⟨rest, hout, k, hn, hrest, hatRest, hstep⟩
    refine ⟨k + 1, hn, ?_, hatRest, hstep⟩
    rw [hout, hrest, emissions]

theorem settles_append_emission_iff {m n : Machine} {out : List Word} :
    m.Settles (m.step.emission ++ out) n ↔ m.step.Settles out n := by
  rw [settles_iff_step]
  constructor
  · rintro ⟨rest, hout, h⟩
    rwa [List.append_cancel_left hout]
  · intro h
    exact ⟨out, rfl, h⟩

/-- A machine that is at rest for good settles as itself. -/
theorem Settles.eq_self {m n : Machine} {out : List Word} (hrest : m.isAtRest = true)
    (hstep : m.step = m) (h : m.Settles out n) : out = [] ∧ n = m := by
  obtain ⟨k, hn, hout, -, -⟩ := h
  induction k generalizing out with
  | zero => exact ⟨hout, hn⟩
  | succ k ih =>
    rw [emissions, hstep, emission_of_isAtRest hrest, List.nil_append] at hout
    rw [Function.iterate_succ_apply, hstep] at hn
    exact ih hn hout

/-- A machine that its next step brings to rest settles as what that leaves. -/
theorem settles_step_of_isAtRest {m : Machine} (h : m.step.isAtRest = true) :
    m.Settles [] m.step := by
  refine settles_iff_step.mpr ⟨[], ?_, settles_self h (step_step_of_isAtRest h)⟩
  rw [emission_of_isAtRest h, List.nil_append]

/-- A machine settles in at most one way. -/
theorem Settles.unique {m n₁ n₂ : Machine} {out₁ out₂ : List Word} (h₁ : m.Settles out₁ n₁)
    (h₂ : m.Settles out₂ n₂) : out₁ = out₂ ∧ n₁ = n₂ := by
  obtain ⟨k, hn, hout, hrest, hstep⟩ := h₁
  induction k generalizing m out₁ out₂ with
  | zero =>
    have hm : n₁ = m := hn
    subst hm
    obtain ⟨rfl, rfl⟩ := h₂.eq_self hrest hstep
    exact ⟨hout, rfl⟩
  | succ k ih =>
    obtain ⟨rest, rfl, hsettles⟩ := settles_iff_step.mp h₂
    obtain ⟨hout', hn'⟩ := ih hsettles hn rfl
    exact ⟨by rw [hout, emissions, hout'], hn'⟩

/-- Draining returns what the machine settles as. -/
theorem exists_drain_iff {m n : Machine} {out : List Word} :
    (∃ fuel, m.drain fuel = some (out, n)) ↔ m.Settles out n := by
  constructor
  · rintro ⟨fuel, h⟩
    induction fuel generalizing m out with
    | zero => cases h
    | succ fuel ih =>
      rw [drain_succ] at h
      split at h
      · next hrest =>
        cases h
        exact settles_step_of_isAtRest hrest
      · obtain ⟨r, hr, heq⟩ := Option.map_eq_some_iff.mp h
        cases heq
        exact settles_append_emission_iff.mpr (ih hr)
  · rintro ⟨k, hn, hout, hrest, hstep⟩
    induction k generalizing m out with
    | zero =>
      -- draining steps before it looks, which does nothing to a machine at rest for good
      have hm : n = m := hn
      subst hm
      refine ⟨1, ?_⟩
      rw [drain_succ, hstep, if_pos hrest, hout, emissions]
    | succ k ih =>
      by_cases hfirst : m.step.isAtRest = true
      · -- draining stops here, and the steps that are left do nothing
        have hsettles : m.step.Settles (emissions k m.step) n := ⟨k, hn, rfl, hrest, hstep⟩
        obtain ⟨hnone, rfl⟩ := hsettles.eq_self hfirst (step_step_of_isAtRest hfirst)
        refine ⟨1, ?_⟩
        rw [drain_succ, if_pos hfirst, hout, emissions, hnone, emission_of_isAtRest hfirst]
        rfl
      · obtain ⟨fuel, hfuel⟩ := ih hn rfl
        refine ⟨fuel + 1, ?_⟩
        rw [drain_succ, if_neg hfirst, hfuel, hout, emissions]
        rfl

/-- Draining never returns exactly if no step brings the machine to rest. -/
theorem drain_eq_none_iff {m : Machine} :
    (∀ fuel, m.drain fuel = none) ↔ ∀ k, (step^[k + 1] m).isAtRest = false := by
  constructor
  · intro hnever k
    refine Bool.eq_false_iff.mpr fun hrest => ?_
    have hlast : step^[k + 1] m = (step^[k] m).step := Function.iterate_succ_apply' step k m
    have hstep : (step^[k + 1] m).step = step^[k + 1] m := by
      rw [hlast] at hrest ⊢
      exact step_step_of_isAtRest hrest
    obtain ⟨fuel, hdrain⟩ := exists_drain_iff.mpr ⟨k + 1, rfl, rfl, hrest, hstep⟩
    cases (hnever fuel).symm.trans hdrain
  · intro hmoves fuel
    refine Option.eq_none_iff_forall_ne_some.mpr fun r hdrain => ?_
    obtain ⟨k, hlast, -, hrest, hstep⟩ := exists_drain_iff.mp ⟨fuel, hdrain⟩
    -- a step more does not move the machine from where it rests
    have hmore : step^[k + 1] m = r.2 := by
      rw [Function.iterate_succ_apply', ← hlast, hstep]
    rw [← hmore, hmoves k] at hrest
    cases hrest

end Intcode.Machine
