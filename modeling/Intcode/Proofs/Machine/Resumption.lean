import Intcode.Proofs.Machine.Steps

/-!
# Suspending and resuming

A driver may hand a machine its input word by word or all at once, and may step, run or drain it as
often as it likes in between. A `Call` is one thing that it does, and `Returns` says of a sequence of
calls that they all come back, what they put out, and what machine they leave.

## Shape of the proof

What a machine settles as is not disturbed by a step: queueing words before or after one comes to the
same, up to starving steps, which put out nothing and leave no trace once words have come
(`settles_extend_iff_step`). So what is still to come after some calls, with the words of the calls
that follow, is what was to come from all words at the start, less what was put out meanwhile
(`Returns.settles_iff`). When the calls end with nothing left to do, that determines everything.
-/

namespace Intcode.Machine

/-! ## Settling with words to come -/

@[simp] theorem emission_extend (m : Machine) (ws : List Word) :
    (m.extend ws).emission = m.emission := rfl

/-- How a machine settles depends on its step alone. -/
theorem settles_iff_of_step_eq {m l n : Machine} {out : List Word} (h : m.step = l.step) :
    m.Settles out n ↔ l.Settles out n := by
  rw [settles_iff_step, settles_iff_step, h]

/-- What is to come after a step, with more words, is what was to come with them before it, less what
the step put out. -/
theorem settles_extend_iff_step {m n : Machine} {ws out : List Word} :
    (m.extend ws).Settles out n ↔
      ∃ rest, out = m.step.emission ++ rest ∧ (m.step.extend ws).Settles rest n := by
  by_cases h : m.Starves
  · -- the next step makes up for this one, which puts out nothing
    have hwaiting : m.step.status = .awaitingInput := by rw [step_of_starves h]
    have hsilent := emission_of_isAtRest (isAtRest_of_awaitingInput hwaiting)
    rw [← settles_iff_of_step_eq (step_extend_step h ws), hsilent]
    constructor
    · intro hsettles
      exact ⟨out, rfl, hsettles⟩
    · rintro ⟨rest, rfl, hsettles⟩
      exact hsettles
  · rw [settles_iff_step, step_extend h ws, emission_extend]

/-- What is to come after a number of steps, with more words. -/
theorem settles_extend_iff_steps {m n : Machine} {ws out : List Word} (k : Nat) :
    (m.extend ws).Settles out n ↔
      ∃ rest, out = emissions k m ++ rest ∧ ((step^[k] m).extend ws).Settles rest n := by
  induction k generalizing m out with
  | zero =>
    constructor
    · intro h
      exact ⟨out, rfl, h⟩
    · rintro ⟨rest, rfl, h⟩
      exact h
  | succ k ih =>
    rw [settles_extend_iff_step]
    constructor
    · rintro ⟨first, rfl, hfirst⟩
      obtain ⟨rest, rfl, hrest⟩ := ih.mp hfirst
      exact ⟨rest, (List.append_assoc _ _ _).symm, hrest⟩
    · rintro ⟨rest, rfl, hrest⟩
      exact ⟨emissions k m.step ++ rest, List.append_assoc _ _ _, ih.mpr ⟨rest, rfl, hrest⟩⟩

theorem settles_extend_steps_iff {m n : Machine} {ws rest : List Word} (k : Nat) :
    (m.extend ws).Settles (emissions k m ++ rest) n ↔ ((step^[k] m).extend ws).Settles rest n := by
  rw [settles_extend_iff_steps k]
  constructor
  · rintro ⟨rest', heq, h⟩
    rwa [List.append_cancel_left heq]
  · intro h
    exact ⟨rest, rfl, h⟩

/-- If a machine settles with more words, it settles without them. -/
theorem exists_settles_of_extend {m n : Machine} {ws out : List Word}
    (h : (m.extend ws).Settles out n) : ∃ out n, m.Settles out n := by
  obtain ⟨k, hn, -, hrest, hstep⟩ := h
  induction k generalizing m with
  | zero =>
    -- what is at rest with more words is at rest without them as well, or starves
    have hm : n = m.extend ws := hn
    subst hm
    refine ⟨[], m.step, settles_step_of_isAtRest ?_⟩
    by_cases h : m.Starves
    · exact isAtRest_of_awaitingInput (by rw [step_of_starves h])
    · rw [step_extend h] at hstep
      have hstatus := congrArg status hstep
      rw [status_extend, status_extend] at hstatus
      rw [isAtRest, hstatus]
      exact hrest
  | succ k ih =>
    by_cases h : m.Starves
    · refine ⟨[], m.step, settles_step_of_isAtRest (isAtRest_of_awaitingInput ?_)⟩
      rw [step_of_starves h]
    · rw [Function.iterate_succ_apply, step_extend h] at hn
      obtain ⟨out, n, hsettles⟩ := ih hn
      exact ⟨m.step.emission ++ out, n, settles_append_emission_iff.mpr hsettles⟩

/-- Settling with more words is settling without them and then with them. -/
theorem settles_extend_iff {m n : Machine} {ws out : List Word} :
    (m.extend ws).Settles out n ↔
      ∃ first l rest, out = first ++ rest ∧ m.Settles first l ∧ (l.extend ws).Settles rest n := by
  constructor
  · intro h
    obtain ⟨first, l, hfirst⟩ := exists_settles_of_extend h
    have hsteps := hfirst
    obtain ⟨k, rfl, rfl, -⟩ := hsteps
    obtain ⟨rest, hout, hrest⟩ := (settles_extend_iff_steps k).mp h
    exact ⟨emissions k m, step^[k] m, rest, hout, hfirst, hrest⟩
  · rintro ⟨first, l, rest, rfl, ⟨k, rfl, rfl, -⟩, hrest⟩
    exact (settles_extend_steps_iff k).mpr hrest

/-! ## Calls -/

/-- What a driver does with a machine that has no source of input. -/
inductive Call where
  | push (word : Word)
  | extend (words : List Word)
  | step
  | run
  | drain

/-- The words that a call queues. -/
def Call.words : Call → List Word
  | push word => [word]
  | extend words => words
  | step | run | drain => []

/-- Whether a call executes instructions. -/
def Call.executes : Call → Bool
  | push _ | extend _ => false
  | step | run | drain => true

/-- A call on `m` comes back and leaves `n`, after putting out some words. -/
inductive Call.Returns : Call → Machine → List Word → Machine → Prop
  | push (m : Machine) (word : Word) : Returns (.push word) m [] (m.push word)
  | extend (m : Machine) (words : List Word) : Returns (.extend words) m [] (m.extend words)
  | step (m : Machine) : Returns .step m m.step.emission m.step
  | run {m n : Machine} {fuel : Nat} : m.run fuel = some n → Returns .run m n.emission n
  | drain {m n : Machine} {fuel : Nat} {out : List Word} :
      m.drain fuel = some (out, n) → Returns .drain m out n

/-- Calls made one after the other on `m` all come back and leave `n`, after putting out some words. -/
inductive Returns : List Call → Machine → List Word → Machine → Prop
  | nil (m : Machine) : Returns [] m [] m
  | cons {call : Call} {calls : List Call} {m l n : Machine} {out rest : List Word} :
      call.Returns m out l → Returns calls l rest n → Returns (call :: calls) m (out ++ rest) n

/-- Calls that left the machine `n` have left nothing to do: its execution is over, or the last call
that executed instructions ended for want of input and nothing was queued since. Queueing changes no
status, so it is that of `n` with which the last such call ended. -/
def Quiescent (calls : List Call) (n : Machine) : Prop :=
  n.isOver = true ∨
    n.status = .awaitingInput ∧
      ∃ before call after, calls = before ++ call :: after ∧ call.executes = true ∧
        ∀ c ∈ after, c.executes = false ∧ c.words = []

/-! ## What calls do -/

/-- A call queues words and nothing else, or it takes steps; and if it leaves the machine at rest,
that is for good. -/
theorem Call.Returns.queues_or_steps {call : Call} {m n : Machine} {out : List Word}
    (h : call.Returns m out n) :
    call.executes = false ∧ out = [] ∧ n = m.extend call.words ∨
      call.executes = true ∧ call.words = [] ∧
        ∃ k, out = emissions k m ∧ n = Machine.step^[k] m ∧ (n.isAtRest = true → n.step = n) := by
  cases h with
  | push word => exact Or.inl ⟨rfl, rfl, rfl⟩
  | extend words => exact Or.inl ⟨rfl, rfl, rfl⟩
  | step =>
    exact Or.inr ⟨rfl, rfl, 1, (List.append_nil _).symm, rfl, step_step_of_isAtRest⟩
  | run hrun =>
    obtain ⟨k, rfl, hemission⟩ := steps_of_run hrun
    refine Or.inr ⟨rfl, rfl, k + 1, hemission, rfl, ?_⟩
    rw [Function.iterate_succ_apply']
    exact step_step_of_isAtRest
  | drain hdrain =>
    obtain ⟨k, hn, hout, -, hstep⟩ := exists_drain_iff.mp ⟨_, hdrain⟩
    exact Or.inr ⟨rfl, rfl, k, hout, hn, fun _ => hstep⟩

/-- What is to come after calls, with the words still to be queued, is what was to come from all words
at the start, less what the calls put out. -/
theorem Returns.settles_iff {calls : List Call} {m l n : Machine} {out : List Word}
    (h : Returns calls m out l) (ws rest : List Word) :
    (m.extend (calls.flatMap Call.words ++ ws)).Settles (out ++ rest) n ↔
      (l.extend ws).Settles rest n := by
  induction h with
  | nil m => rfl
  | @cons call calls m l n out rest' hcall _ ih =>
    rw [← ih, List.flatMap_cons, List.append_assoc, List.append_assoc]
    rcases hcall.queues_or_steps with ⟨-, rfl, rfl⟩ | ⟨-, hwords, k, rfl, rfl, -⟩
    · rw [extend_extend, List.nil_append]
    · rw [hwords, List.nil_append]
      exact settles_extend_steps_iff k

/-- Calls that queue no word and execute nothing leave the machine alone. -/
theorem Returns.eq_of_idle {calls : List Call} {m n : Machine} {out : List Word}
    (h : Returns calls m out n) (hidle : ∀ c ∈ calls, c.executes = false ∧ c.words = []) :
    n = m := by
  induction h with
  | nil m => rfl
  | @cons call calls m l n out rest hcall _ ih =>
    obtain ⟨hexecutes, hwords⟩ := hidle call List.mem_cons_self
    rw [ih fun c hc => hidle c (List.mem_cons_of_mem _ hc)]
    rcases hcall.queues_or_steps with ⟨-, -, rfl⟩ | ⟨htrue, -⟩
    · rw [hwords, extend_nil]
    · rw [hexecutes] at htrue
      cases htrue

theorem returns_append_iff {before after : List Call} {m n : Machine} {out : List Word} :
    Returns (before ++ after) m out n ↔
      ∃ first l rest, out = first ++ rest ∧ Returns before m first l ∧ Returns after l rest n := by
  induction before generalizing m out with
  | nil =>
    constructor
    · intro h
      exact ⟨[], m, out, rfl, .nil m, h⟩
    · rintro ⟨first, l, rest, rfl, h, hrest⟩
      cases h
      exact hrest
  | cons call before ih =>
    constructor
    · intro h
      cases h with
      | cons hcall hcalls =>
        obtain ⟨first, l, rest, rfl, hfirst, hrest⟩ := ih.mp hcalls
        exact ⟨_, l, rest, (List.append_assoc _ _ _).symm, .cons hcall hfirst, hrest⟩
    · rintro ⟨first, l, rest, rfl, h, hrest⟩
      cases h with
      | cons hcall hbefore =>
        rw [List.append_assoc]
        exact .cons hcall (ih.mpr ⟨_, l, rest, rfl, hbefore, hrest⟩)

/-- Calls that leave nothing to do leave the machine at rest for good. -/
theorem Returns.settles_of_quiescent {calls : List Call} {m n : Machine} {out : List Word}
    (h : Returns calls m out n) (hquiescent : Quiescent calls n) : n.Settles [] n := by
  rcases hquiescent with hover | ⟨hwaiting, before, call, after, rfl, hexecutes, hidle⟩
  · exact settles_self (isAtRest_of_isOver hover) (step_of_isOver hover)
  · obtain ⟨-, l, rest, -, -, hlast⟩ := returns_append_iff.mp h
    cases hlast with
    | cons hcall hafter =>
      obtain rfl := hafter.eq_of_idle hidle
      have hrest := isAtRest_of_awaitingInput hwaiting
      rcases hcall.queues_or_steps with ⟨hqueues, -⟩ | ⟨-, -, -, -, -, hstep⟩
      · rw [hexecutes] at hqueues
        cases hqueues
      · exact settles_self hrest (hstep hrest)

/-- Calls that leave nothing to do leave what the machine settles as with all their words. -/
theorem Returns.settles {calls : List Call} {m n : Machine} {out : List Word}
    (h : Returns calls m out n) (hquiescent : Quiescent calls n) :
    (m.extend (calls.flatMap Call.words)).Settles out n := by
  have hrest : (n.extend []).Settles [] n := by
    rw [extend_nil]
    exact h.settles_of_quiescent hquiescent
  have hsettles := (h.settles_iff [] []).mpr hrest
  rwa [List.append_nil, List.append_nil] at hsettles

/-! ## Input in chunks -/

/-- Draining once with words queued returns what the machine settles as with them. -/
theorem returns_extend_drain_iff {m n : Machine} {ws out : List Word} :
    Returns [.extend ws, .drain] m out n ↔ (m.extend ws).Settles out n := by
  constructor
  · intro h
    cases h with
    | cons hextend hcalls =>
      cases hextend
      cases hcalls with
      | cons hcall hnil =>
        cases hnil
        cases hcall with
        | drain hdrain =>
          rw [List.append_nil]
          exact exists_drain_iff.mp ⟨_, hdrain⟩
  · intro h
    obtain ⟨fuel, hdrain⟩ := exists_drain_iff.mpr h
    have hcalls := Returns.cons (.extend m ws) (.cons (.drain hdrain) (.nil n))
    rwa [List.append_nil] at hcalls

/-- Draining after each of several chunks of input. -/
def drainEach (chunks : List (List Word)) : List Call :=
  chunks.flatMap fun chunk => [.extend chunk, .drain]

/-- Draining after each chunk returns what the machine settles as with all chunks. -/
theorem returns_drainEach_iff {m n : Machine} {chunk : List Word} {chunks : List (List Word)}
    {out : List Word} :
    Returns (drainEach (chunk :: chunks)) m out n ↔
      (m.extend (chunk :: chunks).flatten).Settles out n := by
  induction chunks generalizing m chunk out with
  | nil =>
    rw [List.flatten_singleton, ← returns_extend_drain_iff]
    rfl
  | cons chunk' chunks ih =>
    rw [List.flatten_cons, ← extend_extend, settles_extend_iff]
    show Returns ([.extend chunk, .drain] ++ drainEach (chunk' :: chunks)) m out n ↔ _
    simp only [returns_append_iff, returns_extend_drain_iff, ih]

/-- **Suspension and resumption are transparent.** Two ways to feed a machine the same words that both
leave nothing to do have put out the same words and leave the same machine. In particular, draining
after each chunk of input comes back if and only if draining once with all chunks does, and then to the
same. -/
theorem quiescent_calls_agree (m : Machine) :
    (∀ {calls₁ calls₂ : List Call} {out₁ out₂ : List Word} {n₁ n₂ : Machine},
      Returns calls₁ m out₁ n₁ → Quiescent calls₁ n₁ →
      Returns calls₂ m out₂ n₂ → Quiescent calls₂ n₂ →
      calls₁.flatMap Call.words = calls₂.flatMap Call.words → out₁ = out₂ ∧ n₁ = n₂) ∧
    ∀ (chunk : List Word) (chunks : List (List Word)) (out : List Word) (n : Machine),
      Returns (drainEach (chunk :: chunks)) m out n ↔
        Returns [.extend (chunk :: chunks).flatten, .drain] m out n := by
  constructor
  · intro calls₁ calls₂ out₁ out₂ n₁ n₂ h₁ hquiescent₁ h₂ hquiescent₂ hwords
    have hsettles₁ := h₁.settles hquiescent₁
    rw [hwords] at hsettles₁
    exact hsettles₁.unique (h₂.settles hquiescent₂)
  · intro chunk chunks out n
    rw [returns_drainEach_iff, returns_extend_drain_iff]

/-- A program that puts out what it reads, fed two words one at a time, and fed both after it was
stepped once in vain. -/
theorem quiescent_calls_agree_echo :
    let m := ofProgram ⟨[3, 20, 4, 20, 1105, 1, 0]⟩ {}
    let calls₁ : List Call := [.extend [5], .drain, .extend [6], .drain]
    let calls₂ : List Call := [.step, .extend [5, 6], .drain]
    let n₁ := step^[4] ((step^[4] (m.extend [5])).extend [6])
    let n₂ := step^[7] (m.step.extend [5, 6])
    Returns calls₁ m [5, 6] n₁ ∧ Quiescent calls₁ n₁ ∧
      Returns calls₂ m [5, 6] n₂ ∧ Quiescent calls₂ n₂ ∧ n₁ = n₂ := by
  intro m calls₁ calls₂ n₁ n₂
  have hfirst : (m.extend [5]).Settles [5] (step^[4] (m.extend [5])) :=
    ⟨4, rfl, by decide +kernel, by decide +kernel, step_step_of_isAtRest (by decide +kernel)⟩
  have hsecond : ((step^[4] (m.extend [5])).extend [6]).Settles [6] n₁ :=
    ⟨4, rfl, by decide +kernel, by decide +kernel, step_step_of_isAtRest (by decide +kernel)⟩
  have hboth : (m.step.extend [5, 6]).Settles [5, 6] n₂ :=
    ⟨7, rfl, by decide +kernel, by decide +kernel, step_step_of_isAtRest (by decide +kernel)⟩
  have h₁ : Returns calls₁ m [5, 6] n₁ := by
    show Returns ([.extend [5], .drain] ++ [.extend [6], .drain]) m [5, 6] n₁
    exact returns_append_iff.mpr ⟨[5], _, [6], rfl, returns_extend_drain_iff.mpr hfirst,
      returns_extend_drain_iff.mpr hsecond⟩
  have h₂ : Returns calls₂ m [5, 6] n₂ := by
    show Returns ([.step] ++ [.extend [5, 6], .drain]) m [5, 6] n₂
    exact returns_append_iff.mpr ⟨_, m.step, [5, 6], by decide +kernel,
      .cons (.step m) (.nil m.step), returns_extend_drain_iff.mpr hboth⟩
  have hquiescent₁ : Quiescent calls₁ n₁ :=
    Or.inr ⟨by decide +kernel, [.extend [5], .drain, .extend [6]], .drain, [], rfl, rfl, by simp⟩
  have hquiescent₂ : Quiescent calls₂ n₂ :=
    Or.inr ⟨by decide +kernel, [.step, .extend [5, 6]], .drain, [], rfl, rfl, by simp⟩
  obtain ⟨-, hagree⟩ := (quiescent_calls_agree m).1 h₁ hquiescent₁ h₂ hquiescent₂ rfl
  exact ⟨h₁, hquiescent₁, h₂, hquiescent₂, hagree⟩

end Intcode.Machine
