import Mathlib.Data.List.Basic
import Intcode.Machine.Fetch

/-!
# What a computation reads

`Fetch.eval` passes through the sequencing of computations, so a computation made of parts is
evaluated part by part. `Fetch.reads` lists the addresses that are asked for over given contents, and
a run in a memory touches exactly these. Touching a cell twice is touching it once, so repeating a run
in the memory that it left changes nothing (`Fetch.run_run`): an instruction that could not go on may
be executed anew without a trace.
-/

namespace Intcode.Fetch

variable {α β : Type} {contents : Word → Word}

/-! ## Evaluation -/

@[simp] theorem eval_pure (answer : α) : (pure answer : Fetch α).eval contents = pure answer := rfl

@[simp] theorem eval_cell (address : Word) :
    (cell address).eval contents = pure (contents address) := rfl

/-- Computations in sequence are evaluated in sequence, and the first fault ends both. -/
@[simp] theorem eval_bind (f : Fetch α) (g : α → Fetch β) :
    (f >>= g).eval contents = f.eval contents >>= fun answer => (g answer).eval contents := by
  show (f.bind g).eval contents = _
  induction f with
  | done answer => rfl
  | fault cause => rfl
  | read address next ih =>
    rw [bind, eval, eval]
    exact ih (contents address)

/-- Where computations in sequence answer, so do both. -/
theorem exists_of_eval_bind {f : Fetch α} {g : α → Fetch β} {answer : β}
    (h : (f >>= g).eval contents = .ok answer) :
    ∃ between, f.eval contents = .ok between ∧ (g between).eval contents = .ok answer := by
  rw [eval_bind] at h
  rcases hf : f.eval contents with cause | between
  · rw [hf] at h
    cases h
  · rw [hf] at h
    exact ⟨between, rfl, h⟩

/-- Computations in sequence are carried out in sequence, the second in the memory that the first left,
and the first fault ends both. -/
theorem run_bind (f : Fetch α) (g : α → Fetch β) (m : Memory) :
    (f >>= g).run m =
      match f.run m with
      | (.ok answer, m) => (g answer).run m
      | (.error cause, m) => (.error cause, m) := by
  show (f.bind g).run m = _
  induction f generalizing m with
  | done answer => rfl
  | fault cause => rfl
  | read address next ih =>
    rw [bind, run, run]
    exact ih (m.read address).1 (m.read address).2

/-! ## Footprint -/

/-- The addresses that the computation asks for over given contents, in order. -/
def reads (contents : Word → Word) : Fetch α → List Word
  | done _ => []
  | fault _ => []
  | read address next => address :: (next (contents address)).reads contents

/-- A run touches what it reads and nothing else. -/
theorem contains_run (f : Fetch α) (m : Memory) (a : Word) :
    (f.run m).2.contains a = (decide (a ∈ f.reads m.get) || m.contains a) := by
  induction f generalizing m with
  | done answer => simp [run, reads]
  | fault cause => simp [run, reads]
  | read address next ih =>
    have hget : (m.touch address).get = m.get := funext (Memory.get_touch m address)
    simp only [run, reads, Memory.read, ih, hget, Memory.contains_touch, List.mem_cons]
    by_cases h : address = a
    · simp [h]
    · simp [h, Ne.symm h]

/-- Repeating a run in the memory that it left comes to the same and touches nothing new. -/
theorem run_run (f : Fetch α) (m : Memory) : f.run (f.run m).2 = f.run m := by
  have hget : (f.run m).2.get = m.get := funext (get_run f m)
  refine Prod.ext ?_ (Memory.ext_view (fun a => get_run f _ a) fun a => ?_)
  · rw [run_fst, run_fst, hget]
  · rw [contains_run f (f.run m).2, hget, contains_run]
    cases decide (a ∈ f.reads m.get) <;> simp

end Intcode.Fetch
