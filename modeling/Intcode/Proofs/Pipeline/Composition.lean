import Intcode.Proofs.Pipeline.Pass

/-!
# Stages as stream functions

Without feedback a signal is one pass. A stage keeps its state between signals; it may want several of
them before it puts out a word, answer several words at once, or halt with words left in its queue.
Still, over all signals a stage does no more than a fresh machine would that had its phase and all the
words of the stage before in its queue from the start.

## Shape of the proof

A machine that is given words in two portions, and drained after each, puts out and is left as if it
had been given both at once (`settles_extend_iff`). By induction on the stages, the same holds of a
pass: one with all words is one with the first and then one with the others (`passes_append_iff`). By
induction on the signals, answering them is then a pass with all of them, which is the chain of fresh
machines.
-/

namespace Intcode

/-- A machine with a fault is left alone, so it had none if it settles without. -/
theorem Machine.Settles.fault?_eq_none {m n : Machine} {ws out : List Word}
    (h : (m.extend ws).Settles out n) (hfault : n.fault? = none) : m.fault? = none := by
  cases hs : m.status with
  | faulted fault =>
    have hover : (m.extend ws).isOver = true := by rw [isOver, status_extend, hs]
    obtain ⟨-, rfl⟩ := h.unique (settles_of_isOver hover)
    exact hfault
  | running => rw [fault?, hs]
  | output => rw [fault?, hs]
  | awaitingInput => rw [fault?, hs]
  | halted => rw [fault?, hs]

namespace Pipeline

open Machine

/-! ## Passes one after the other -/

/-- A pass with all words is a pass with some and then one with the others. -/
theorem passes_append_iff {ws vs : List Word} {stages stages' : List Machine}
    {outs : List (List Word)} :
    Passes (ws ++ vs) stages outs stages' ↔
      ∃ first mid second, outs = List.zipWith (fun out rest => out ++ rest) first second ∧
        Passes ws stages first mid ∧ Passes vs mid second stages' := by
  constructor
  · intro h
    induction stages generalizing ws vs stages' outs with
    | nil =>
      cases h
      exact ⟨[], [], [], rfl, .nil ws, .nil vs⟩
    | cons stage stages ih =>
      cases h with
      | cons hsettles hfault hrest =>
        -- the first stage splits what it puts out, and with that the pass through the others
        rw [← extend_extend] at hsettles
        obtain ⟨out, mid, rest, rfl, hfirst, hsecond⟩ := settles_extend_iff.mp hsettles
        obtain ⟨first, mids, second, rfl, hfirsts, hseconds⟩ := ih hrest
        exact ⟨out :: first, mid :: mids, rest :: second, rfl,
          .cons hfirst (hsecond.fault?_eq_none hfault) hfirsts, .cons hsecond hfault hseconds⟩
  · rintro ⟨first, mid, second, rfl, hfirst, hsecond⟩
    induction hfirst generalizing vs stages' second with
    | nil ws =>
      cases hsecond
      exact .nil _
    | cons hsettles hfault _ ih =>
      cases hsecond with
      | cons hsettles' hfault' hrest =>
        refine .cons ?_ hfault' (ih _ hrest)
        rw [← extend_extend]
        exact settles_extend_iff.mpr ⟨_, _, _, rfl, hsettles, hsettles'⟩

/-- The last stage of two passes puts out what it puts out in one and then in the other. -/
theorem getLastD_zipWith_append {first second : List (List Word)} (ws vs : List Word)
    (h : first.length = second.length) :
    (List.zipWith (fun out rest => out ++ rest) first second).getLastD (ws ++ vs) =
      first.getLastD ws ++ second.getLastD vs := by
  induction first generalizing second ws vs with
  | nil =>
    obtain rfl := List.length_eq_zero_iff.mp h.symm
    rfl
  | cons out first ih =>
    cases second with
    | nil => cases h
    | cons rest second =>
      rw [List.zipWith_cons_cons, List.getLastD_cons, List.getLastD_cons, List.getLastD_cons]
      exact ih out rest (Nat.succ.inj h)

/-! ## Signals one after the other -/

/-- The signals, driven through `p` one after the other, are all answered without a fault; `said` has
what the last stage put out for each, and the pipeline is left as `q`. -/
inductive Answers :
    Pipeline → List Word → List (Option Word) → List (List Word) → Pipeline → Prop
  | nil (p : Pipeline) : Answers p [] [] [] p
  | cons {p l q : Pipeline} {fuel : Nat} {signal : Word} {signals : List Word}
      {answer : Option Word} {answers : List (Option Word)} {said : List (List Word)} :
      p.run fuel signal = some (.ok answer, l) → Answers l signals answers said q →
      Answers p (signal :: signals) (answer :: answers) (p.emitted fuel signal :: said) q

/-- Without feedback a drive is one pass. -/
theorem Drives.passes {words said : List Word} {p q : Pipeline} (h : Drives words p said q)
    (hfeedback : p.feedback = false) :
    ∃ outs stages, Passes words p.stages outs stages ∧ said = outs.getLastD words ∧
      q = { p with stages } := by
  cases h with
  | stop hpasses _ => exact ⟨_, _, hpasses, rfl, rfl⟩
  | goOn _ hgoesOn _ =>
    rw [goesOn, hfeedback] at hgoesOn
    cases hgoesOn

theorem Passes.exists_run {p : Pipeline} {signal : Word} {outs : List (List Word)}
    {stages : List Machine} (hfeedback : p.feedback = false) (hstages : p.stages ≠ [])
    (h : Passes [signal] p.stages outs stages) :
    ∃ fuel answer, p.run fuel signal = some (.ok answer, { p with stages }) := by
  obtain ⟨fuel, hpass⟩ := h.exists_pass
  have hempty : ¬ p.stages.isEmpty = true := fun h => hstages (List.isEmpty_iff.mp h)
  refine ⟨fuel + 1, (outs.getLastD [signal]).getLast?.or none, ?_⟩
  rw [run, if_neg hempty, cycle, hpass _ (Nat.le_succ fuel)]
  dsimp only
  rw [if_neg (by simp [hfeedback])]
  rfl

/-- Signals are answered by what a pass with all of them puts out. -/
theorem Answers.passes {p q : Pipeline} {signal : Word} {signals : List Word}
    {answers : List (Option Word)} {said : List (List Word)} (hfeedback : p.feedback = false)
    (hstages : p.stages ≠ []) (h : Answers p (signal :: signals) answers said q) :
    ∃ outs, Passes (signal :: signals) p.stages outs q.stages ∧
      said.flatten = outs.getLastD (signal :: signals) ∧ answers = said.map List.getLast? := by
  -- from one signal on: a pass without any words would still drain the stages
  induction signals generalizing p signal answers said with
  | nil =>
    cases h with
    | cons hrun hnil =>
      cases hnil
      obtain ⟨hdrives, rfl⟩ := drives_of_run hstages hrun
      obtain ⟨outs, stages, hpasses, hsaid, rfl⟩ := hdrives.passes hfeedback
      rw [hsaid, List.flatten_singleton]
      exact ⟨outs, hpasses, rfl, rfl⟩
  | cons signal' signals ih =>
    cases h with
    | cons hrun hanswers =>
      obtain ⟨hdrives, rfl⟩ := drives_of_run hstages hrun
      obtain ⟨first, mid, hfirst, hsaid, rfl⟩ := hdrives.passes hfeedback
      obtain ⟨second, hsecond, hrest, rfl⟩ :=
        ih (p := { p with stages := mid }) hfeedback (hfirst.stages_ne_nil hstages) hanswers
      refine ⟨_, passes_append_iff.mpr ⟨first, mid, second, rfl, hfirst, hsecond⟩, ?_, rfl⟩
      have hlength : first.length = second.length := by
        rw [hfirst.length_outs, hsecond.length_outs, hfirst.length_stages]
      rw [List.flatten_cons, hrest, hsaid]
      exact (getLastD_zipWith_append [signal] (signal' :: signals) hlength).symm

/-- If a pass with all signals meets no fault, each of them is answered. -/
theorem Passes.exists_answers {p : Pipeline} {signal : Word} {signals : List Word}
    {outs : List (List Word)} {stages : List Machine} (hfeedback : p.feedback = false)
    (hstages : p.stages ≠ []) (h : Passes (signal :: signals) p.stages outs stages) :
    ∃ answers said, Answers p (signal :: signals) answers said { p with stages } := by
  induction signals generalizing p signal outs with
  | nil =>
    obtain ⟨fuel, answer, hrun⟩ := h.exists_run hfeedback hstages
    exact ⟨_, _, .cons hrun (.nil _)⟩
  | cons signal' signals ih =>
    have hpasses : Passes ([signal] ++ signal' :: signals) p.stages outs stages := h
    obtain ⟨first, mid, second, -, hfirst, hsecond⟩ := passes_append_iff.mp hpasses
    obtain ⟨fuel, answer, hrun⟩ := hfirst.exists_run hfeedback hstages
    obtain ⟨answers, said, hanswers⟩ :=
      ih (p := { p with stages := mid }) hfeedback (hfirst.stages_ne_nil hstages) hsecond
    exact ⟨_, _, .cons hrun hanswers⟩

/-! ## Fresh machines in a chain -/

/-- A fresh machine per phase, drained with its phase and all that the one before put out in its
queue; the first one is given `input`. None of them faults; they put out `outputs` and are left as
`machines`. -/
inductive Chain (program : Program) (config : Config) :
    List Word → List Word → List (List Word) → List Machine → Prop
  | nil (input : List Word) : Chain program config [] input [] []
  | cons {phase : Word} {phases input out : List Word} {outputs : List (List Word)} {fuel : Nat}
      {m : Machine} {machines : List Machine} :
      ((Machine.ofProgram program config).extend (phase :: input)).drain fuel = some (out, m) →
      m.fault? = none → Chain program config phases out outputs machines →
      Chain program config (phase :: phases) input (out :: outputs) (m :: machines)

/-- A chain of fresh machines is a pass through the stages of a fresh pipeline. -/
theorem chain_iff_passes {program : Program} {config : Config} {phases input : List Word}
    {outputs : List (List Word)} {machines : List Machine} :
    Chain program config phases input outputs machines ↔
      Passes input (phases.map (Machine.ofProgram program config).push) outputs machines := by
  constructor
  · intro h
    induction h with
    | nil input => exact .nil input
    | @cons phase phases input out outputs fuel m machines hdrain hfault _ ih =>
      rw [List.map_cons]
      refine .cons ?_ hfault ih
      rw [push, extend_extend]
      exact exists_drain_iff.mp ⟨fuel, hdrain⟩
  · intro h
    induction phases generalizing input outputs machines with
    | nil =>
      cases h
      exact .nil input
    | cons phase phases ih =>
      rw [List.map_cons] at h
      cases h with
      | cons hsettles hfault hrest =>
        rw [push, extend_extend] at hsettles
        obtain ⟨fuel, hdrain⟩ := exists_drain_iff.mpr hsettles
        exact .cons hdrain hfault (ih hrest)

/-- **A pipeline without feedback composes its stages as stream functions.** If all signals given to a
fresh pipeline are answered, then fresh machines in a chain, the first of which is given all signals at
once, settle without a fault; stage by stage they are left as the pipeline's stages; the last one puts
out all that the last stage did over the signals; and each answer is the last word that the last stage
put out for its signal. Conversely, if the machines of the chain settle without a fault, then all
signals are answered. -/
theorem answers_compose_stages (program : Program) (config : Config) {phases signals : List Word}
    (hphases : phases ≠ []) (hsignals : signals ≠ []) :
    (∀ {answers : List (Option Word)} {said : List (List Word)} {q : Pipeline},
      (ofProgram program phases config false).Answers signals answers said q →
      ∃ outputs, Chain program config phases signals outputs q.stages ∧
        outputs.getLast? = some said.flatten ∧ answers = said.map List.getLast?) ∧
    ∀ {outputs : List (List Word)} {machines : List Machine},
      Chain program config phases signals outputs machines →
      ∃ answers said q,
        (ofProgram program phases config false).Answers signals answers said q ∧
          q.stages = machines := by
  have hstages : (ofProgram program phases config false).stages ≠ [] := fun h =>
    hphases (List.map_eq_nil_iff.mp h)
  obtain ⟨signal, signals, rfl⟩ := List.exists_cons_of_ne_nil hsignals
  constructor
  · intro answers said q hanswers
    obtain ⟨outs, hpasses, hsaid, rfl⟩ := hanswers.passes rfl hstages
    refine ⟨outs, chain_iff_passes.mpr hpasses, ?_, rfl⟩
    rw [hsaid]
    exact hpasses.getLast?_outs hstages
  · intro outputs machines hchain
    obtain ⟨answers, said, hanswers⟩ :=
      (chain_iff_passes.mp hchain).exists_answers (p := ofProgram program phases config false)
        rfl hstages
    exact ⟨answers, said, _, hanswers, rfl⟩

/-- Two stages that add their phase to each word they are given. -/
theorem answers_compose_stages_adders :
    let program : Program := ⟨[3, 100, 3, 101, 1, 100, 101, 102, 4, 102, 1105, 1, 2]⟩
    ∃ said q outputs, (ofProgram program [1, 10] {} false).Answers [5, 6] [some 16, some 17] said q ∧
      Chain program {} [1, 10] [5, 6] outputs q.stages ∧ outputs.getLast? = some said.flatten := by
  intro program
  have hfirst : ((ofProgram program [1, 10] {} false).run 9 5).map Prod.fst =
      some (.ok (some 16)) := by decide +kernel
  have hsecond : (((ofProgram program [1, 10] {} false).run 9 5).bind fun r =>
      r.2.run 9 6).map Prod.fst = some (.ok (some 17)) := by decide +kernel
  obtain ⟨⟨-, l⟩, hl, rfl⟩ := Option.map_eq_some_iff.mp hfirst
  rw [hl, Option.bind_some] at hsecond
  obtain ⟨⟨-, q⟩, hq, rfl⟩ := Option.map_eq_some_iff.mp hsecond
  have hanswers := Answers.cons hl (.cons hq (.nil q))
  obtain ⟨hcompose, -⟩ := answers_compose_stages program {} (List.cons_ne_nil 1 [10])
    (List.cons_ne_nil 5 [6])
  obtain ⟨outputs, hchain, hlast, -⟩ := hcompose hanswers
  exact ⟨_, q, outputs, hanswers, hchain, hlast⟩

end Pipeline

end Intcode
