import Intcode.Proofs.Machine.Resumption

/-!
# Machines as functions on streams

Seen from outside, a machine turns a stream of words into another. What it has put out so far is a
beginning of what it can still come to put out (`Machine.PutsOut`), and that depends on the words that
were queued, not on when they were. So of two ways to drive one machine, each of which has queued a
beginning of the same words, one has put out a beginning of what the other has
(`Returns.isPrefix_or_isPrefix`). If in addition one of the two has nothing left to do, it has put out
at least as much (`Returns.isPrefix_of_settles`, `Returns.isPrefix_of_isOver`).

The module also says when a machine that waits for input has reason to: it does unless it was built
by hand (`Machine.IsCoherent`). And it says that a larger bound does not change what draining answers.
-/

namespace Intcode.Machine

variable {m n n' : Machine} {out out' : List Word}

/-! ## What a machine can come to put out -/

theorem emissions_add (j k : Nat) (m : Machine) :
    emissions (j + k) m = emissions j m ++ emissions k (step^[j] m) := by
  induction j generalizing m with
  | zero => rw [Nat.zero_add]; rfl
  | succ j ih =>
    rw [Nat.succ_add, emissions, emissions, ih, List.append_assoc, Function.iterate_succ_apply]

/-- What later steps put out comes behind what earlier ones did. -/
theorem emissions_isPrefix {j k : Nat} (h : j ≤ k) (m : Machine) :
    emissions j m <+: emissions k m := by
  obtain ⟨l, rfl⟩ := Nat.exists_eq_add_of_le h
  exact ⟨_, (emissions_add j l m).symm⟩

/-- The machine puts out these words before any others. -/
def PutsOut (m : Machine) (out : List Word) : Prop :=
  ∃ k, out = emissions k m

theorem putsOut_nil (m : Machine) : m.PutsOut [] :=
  ⟨0, rfl⟩

/-- A machine has one stream of words. -/
theorem PutsOut.isPrefix_or_isPrefix (h : m.PutsOut out) (h' : m.PutsOut out') :
    out <+: out' ∨ out' <+: out := by
  obtain ⟨j, rfl⟩ := h
  obtain ⟨k, rfl⟩ := h'
  rcases Nat.le_total j k with hle | hle
  · exact Or.inl (emissions_isPrefix hle m)
  · exact Or.inr (emissions_isPrefix hle m)

/-- A machine that is at rest for good puts out nothing. -/
theorem PutsOut.eq_nil (h : m.PutsOut out) (hrest : m.isAtRest = true) (hstep : m.step = m) :
    out = [] := by
  obtain ⟨k, rfl⟩ := h
  induction k with
  | zero => rfl
  | succ k ih => rw [emissions, hstep, ih, emission_of_isAtRest hrest, List.append_nil]

/-- A machine puts out nothing after it has settled. -/
theorem Settles.isPrefix (h : m.Settles out n) (hputsOut : m.PutsOut out') : out' <+: out := by
  obtain ⟨k, rfl, rfl, hrest, hstep⟩ := h
  obtain ⟨j, rfl⟩ := hputsOut
  rcases Nat.le_total j k with hle | hle
  · exact emissions_isPrefix hle m
  · obtain ⟨l, rfl⟩ := Nat.exists_eq_add_of_le hle
    have hnone : emissions l (step^[k] m) = [] := PutsOut.eq_nil ⟨l, rfl⟩ hrest hstep
    have hall : emissions (k + l) m = emissions k m := by
      rw [emissions_add, hnone, List.append_nil]
    exact hall ▸ List.prefix_rfl

theorem settles_of_isOver (h : m.isOver = true) : m.Settles [] m :=
  settles_self (isAtRest_of_isOver h) (step_of_isOver h)

theorem settles_of_starves (h : m.Starves) : m.Settles [] m.step :=
  settles_step_of_isAtRest (isAtRest_of_awaitingInput (by rw [step_of_starves h]))

/-! ## Calls on a machine -/

/-- What a step puts out comes before what the machine puts out with more words. -/
theorem putsOut_extend_of_step {ws : List Word} (h : (m.step.extend ws).PutsOut out) :
    (m.extend ws).PutsOut (m.step.emission ++ out) := by
  obtain ⟨k, rfl⟩ := h
  by_cases hstarves : m.Starves
  · -- the step put out nothing, and the next one makes up for it
    have hwaiting : m.step.status = .awaitingInput := by rw [step_of_starves hstarves]
    refine ⟨k, ?_⟩
    rw [emission_of_isAtRest (isAtRest_of_awaitingInput hwaiting), List.nil_append]
    cases k with
    | zero => rfl
    | succ k => rw [emissions, emissions, step_extend_step hstarves]
  · refine ⟨k + 1, ?_⟩
    rw [emissions, step_extend hstarves, emission_extend]

theorem putsOut_extend_of_steps {ws : List Word} (k : Nat)
    (h : ((step^[k] m).extend ws).PutsOut out) :
    (m.extend ws).PutsOut (emissions k m ++ out) := by
  induction k generalizing m with
  | zero => exact h
  | succ k ih =>
    rw [emissions, List.append_assoc]
    exact putsOut_extend_of_step (ih h)

/-- What calls put out the machine puts out first, too, if it is given their words, and any words
behind them, at the start. -/
theorem Returns.putsOut {calls : List Call} (h : Returns calls m out n) (ws : List Word) :
    (m.extend (calls.flatMap Call.words ++ ws)).PutsOut out := by
  -- words that a call queues move to the start, past all steps made before
  induction h with
  | nil m => exact putsOut_nil _
  | @cons call calls m l n out rest hcall _ ih =>
    rw [List.flatMap_cons, List.append_assoc]
    rcases hcall.queues_or_steps with ⟨-, rfl, rfl⟩ | ⟨-, hwords, k, rfl, rfl, -⟩
    · rwa [extend_extend] at ih
    · rw [hwords]
      exact putsOut_extend_of_steps k ih

section Comparison

variable {calls calls' : List Call}

/-- Of two ways to drive a machine with the same words, as far as they go, one has put out a beginning
of what the other has. -/
theorem Returns.isPrefix_or_isPrefix (h : Returns calls m out n) (h' : Returns calls' m out' n')
    (hwords : calls.flatMap Call.words <+: calls'.flatMap Call.words ∨
      calls'.flatMap Call.words <+: calls.flatMap Call.words) :
    out <+: out' ∨ out' <+: out := by
  rcases hwords with ⟨ws, hws⟩ | ⟨ws, hws⟩
  · have hputsOut' := h'.putsOut []
    rw [List.append_nil, ← hws] at hputsOut'
    exact (h.putsOut ws).isPrefix_or_isPrefix hputsOut'
  · have hputsOut := h.putsOut []
    rw [List.append_nil, ← hws] at hputsOut
    exact hputsOut.isPrefix_or_isPrefix (h'.putsOut ws)

/-- Calls that leave a machine with nothing to do have put out what any calls have that queued no
other words. -/
theorem Returns.isPrefix_of_settles {l : Machine} (h : Returns calls m out n)
    (h' : Returns calls' m out' n') (hsettles : n'.Settles [] l)
    (hwords : calls.flatMap Call.words <+: calls'.flatMap Call.words) : out <+: out' := by
  obtain ⟨ws, hws⟩ := hwords
  have hsettles' := (h'.settles_iff [] []).mpr ((extend_nil n').symm ▸ hsettles)
  rw [List.append_nil, List.append_nil, ← hws] at hsettles'
  exact hsettles'.isPrefix (h.putsOut ws)

/-- Calls that brought a machine's execution to its end have put out all that it can, whatever words
may come. -/
theorem Returns.isPrefix_of_isOver (h : Returns calls m out n) (h' : Returns calls' m out' n')
    (hover : n'.isOver = true)
    (hwords : calls.flatMap Call.words <+: calls'.flatMap Call.words ∨
      calls'.flatMap Call.words <+: calls.flatMap Call.words) : out <+: out' := by
  rcases hwords with hwords | ⟨ws, hws⟩
  · exact h.isPrefix_of_settles h' (settles_of_isOver hover) hwords
  · -- the other calls queued more, which a machine whose execution is over does not look at
    have hended : (n'.extend ws).Settles [] (n'.extend ws) := settles_of_isOver hover
    have hsettles' := (h'.settles_iff ws []).mpr hended
    rw [hws, List.append_nil] at hsettles'
    have hputsOut := h.putsOut []
    rw [List.append_nil] at hputsOut
    exact hsettles'.isPrefix hputsOut

end Comparison

/-! ## Waiting with a reason -/

/-- A machine settles with its execution over, or starved. -/
theorem Settles.isOver_or_starves (h : m.Settles out n) : n.isOver = true ∨ n.Starves := by
  obtain ⟨-, -, -, hrest, hstep⟩ := h
  cases hs : n.status with
  | running => rw [isAtRest, hs] at hrest; cases hrest
  | output => rw [isAtRest, hs] at hrest; cases hrest
  | awaitingInput => exact Or.inr (starves_of_status_step (by rw [hstep, hs]))
  | halted => exact Or.inl (by rw [isOver, hs])
  | faulted fault => exact Or.inl (by rw [isOver, hs])

/-- If a machine waits for input, its next instruction reads some. -/
def IsCoherent (m : Machine) : Prop :=
  m.status = .awaitingInput → ∃ i target, m.resolved = .ok (i, .input target)

theorem isCoherent_ofProgram (program : Program) (config : Config) :
    (ofProgram program config).IsCoherent :=
  fun h => nomatch h

theorem IsCoherent.extend (h : m.IsCoherent) (ws : List Word) : (m.extend ws).IsCoherent :=
  h

/-- A step leaves a coherent machine. -/
theorem isCoherent_step (m : Machine) : m.step.IsCoherent := by
  intro hwaiting
  have hstarves := starves_of_status_step hwaiting
  obtain ⟨i, target, hresolved⟩ := hstarves.resolved_input
  refine ⟨i, target, ?_⟩
  rw [step_of_starves hstarves]
  exact m.resolved_fetched.trans hresolved

theorem Settles.isCoherent (h : m.Settles out n) : n.IsCoherent := by
  obtain ⟨-, -, -, -, hstep⟩ := h
  exact hstep ▸ isCoherent_step n

/-- A coherent machine that waits for input starves unless there is a word. -/
theorem IsCoherent.starves (h : m.IsCoherent) (hwaiting : m.status = .awaitingInput)
    (hqueue : m.queue = []) : m.Starves :=
  ⟨by rw [isOver, hwaiting], hqueue, h hwaiting⟩

/-- A step that leaves the machine waiting leaves it starving. -/
theorem starves_step_of_status (h : m.step.status = .awaitingInput) : m.step.Starves := by
  have hstarves := starves_of_status_step h
  refine (isCoherent_step m).starves h ?_
  rw [step_of_starves hstarves]
  exact hstarves.queue_eq_nil

/-! ## Draining with a larger bound -/

theorem drain_succ_of_eq_some {r : List Word × Machine} {fuel : Nat} (h : m.drain fuel = some r) :
    m.drain (fuel + 1) = some r := by
  induction fuel generalizing m r with
  | zero => cases h
  | succ fuel ih =>
    rw [drain_succ] at h ⊢
    by_cases hrest : m.step.isAtRest = true
    · rwa [if_pos hrest] at h ⊢
    · rw [if_neg hrest] at h ⊢
      obtain ⟨later, hlater, rfl⟩ := Option.map_eq_some_iff.mp h
      rw [ih hlater, Option.map_some]

/-- A larger bound does not change what draining answers. -/
theorem drain_mono {r : List Word × Machine} {fuel more : Nat} (h : m.drain fuel = some r)
    (hle : fuel ≤ more) : m.drain more = some r := by
  induction hle with
  | refl => exact h
  | step _ ih => exact drain_succ_of_eq_some ih

end Intcode.Machine
