import Intcode.Proofs.Pipeline.Pass
import Intcode.Proofs.Pipeline.Ring

/-!
# Feedback, whatever the order

With feedback a pipeline drains its stages in turn, round after round, and hands over what a stage put
out when that stage has come to rest. It could as well pick any stage at any time, let it execute a
single instruction, and hand over every word at once (`turns`). Whichever way it goes until the last
stage has halted or no stage can go on, the last stage puts out the same words, so the answer is the
same.

## Shape of the proof

Both ways are executions of the ring that the stages form, and at most the words that one stage has just
put out are on their way in it. A drive passes them on from stage to stage (`Passes.reaches`) and stops
when there are none or the last stage has halted (`Drives.reaches`). Turns deliver them before the next
turn (`Reaches.turns`). Finished executions of a ring agree.
-/

namespace Intcode.Pipeline

open Machine

/-! ## Pipelines at work -/

/-- Pipelines that a driver comes to hold: a fresh one, with feedback switched on or off, and what is
left when a signal was answered. -/
inductive Driven : Pipeline → Prop
  | ofProgram (program : Program) (phases : List Word) (config : Config) (feedback : Bool) :
      Driven (ofProgram program phases config feedback)
  | switch {p : Pipeline} (feedback : Bool) : Driven p → Driven { p with feedback }
  | answer {p q : Pipeline} {fuel : Nat} {signal : Word} {answer : Option Word} :
      Driven p → p.run fuel signal = some (.ok answer, q) → Driven q

/-- A pass leaves every stage settled. -/
theorem Passes.exists_settles {words : List Word} {stages stages' : List Machine}
    {outs : List (List Word)} (h : Passes words stages outs stages') :
    ∀ stage' ∈ stages', ∃ (m : Machine) (out : List Word), m.Settles out stage' := by
  induction h with
  | nil words => exact fun _ hmem => absurd hmem List.not_mem_nil
  | cons hsettles _ _ ih =>
    intro stage' hmem
    rcases List.mem_cons.mp hmem with rfl | hmem
    · exact ⟨_, _, hsettles⟩
    · exact ih stage' hmem

theorem Drives.isCoherent {words out : List Word} {p q : Pipeline} (h : Drives words p out q) :
    ∀ stage ∈ q.stages, stage.IsCoherent := by
  induction h with
  | stop hpasses _ =>
    intro stage hmem
    obtain ⟨m, out, hsettles⟩ := hpasses.exists_settles stage hmem
    exact hsettles.isCoherent
  | goOn _ _ _ ih => exact ih

/-- The stages of a pipeline at work wait for input only where they read some. -/
theorem Driven.isCoherent {p : Pipeline} (h : p.Driven) : ∀ stage ∈ p.stages, stage.IsCoherent := by
  induction h with
  | ofProgram program phases config feedback =>
    intro stage hmem
    obtain ⟨phase, -, rfl⟩ := List.mem_map.mp hmem
    exact (isCoherent_ofProgram program config).extend [phase]
  | switch feedback _ ih => exact ih
  | @answer p q fuel signal answer _ hrun ih =>
    by_cases hstages : p.stages = []
    · rw [Pipeline.run, if_pos (List.isEmpty_iff.mpr hstages)] at hrun
      cases hrun
      exact ih
    · exact (drives_of_run hstages hrun).1.isCoherent

/-! ## Drives as executions of the ring -/

section Drives

variable {start : List Machine} {signal : Word} {fed said : Nat → List Word}

/-- A pass through the stages behind `before`, with the words that wait for the first of them, is an
execution of the ring, and leaves words only for the first stage of all. -/
theorem Passes.reaches {words : List Word} {before stages stages' : List Machine}
    {outs : List (List Word)} (h : Passes words stages outs stages')
    (hreaches : Reaches start signal (before ++ stages) fed said)
    (htransit : InTransit start.length signal (place start.length before.length) words fed said) :
    ∃ fed' said', Reaches start signal (before ++ stages') fed' said' ∧
      InTransit start.length signal 0 (outs.getLastD words) fed' said' ∧
      said' (start.length - 1) = said (start.length - 1) ++ outs.getLastD [] := by
  have hlength := hreaches.length_stages
  rw [List.length_append] at hlength
  -- on the pass; a stage that was drained joins those before
  induction h generalizing before fed said with
  | nil words =>
    refine ⟨fed, said, hreaches, ?_, (List.append_nil _).symm⟩
    rwa [place, if_neg (by rw [← hlength]; exact Nat.lt_irrefl _)] at htransit
  | @cons words out stage stage' stages stages' outs hsettles _ hpasses ih =>
    rw [List.length_cons] at hlength
    have hk : before.length < start.length := by omega
    have hstage : (before ++ stage :: stages)[before.length]? = some stage := by
      rw [List.getElem?_append_right (Nat.le_refl _), Nat.sub_self]
      rfl
    have hset : (before ++ stage :: stages).set before.length stage' =
        before ++ [stage'] ++ stages := by
      rw [List.set_append_right _ _ (Nat.le_refl _), Nat.sub_self, List.append_assoc]
      rfl
    have hbehind : (before ++ [stage']).length = before.length + 1 := List.length_append
    rw [place, if_pos hk] at htransit
    obtain ⟨hdrained, htransit'⟩ := hreaches.drain htransit hstage hsettles
    rw [hset] at hdrained
    obtain ⟨fed', said', hreaches', hdone, hlast⟩ := ih hdrained (hbehind ▸ htransit') (by omega)
    rw [List.append_assoc] at hreaches'
    refine ⟨fed', said', hreaches', by rwa [List.getLastD_cons], ?_⟩
    rw [hlast, List.getLastD_cons]
    -- only the last stage of all adds to what the last stage has put out
    cases hpasses with
    | nil =>
      have hself : start.length - 1 = before.length := by
        rw [List.length_nil] at hlength
        omega
      rw [hself, Function.update_self]
      exact List.append_nil _
    | cons =>
      have hne : start.length - 1 ≠ before.length := by
        rw [List.length_cons] at hlength
        omega
      rw [Function.update_of_ne hne, List.getLastD_cons, List.getLastD_cons]

/-- A whole pass takes the words that wait for the first stage and leaves it those of the last. -/
theorem Passes.reaches_around {words : List Word} {stages stages' : List Machine}
    {outs : List (List Word)} (h : Passes words stages outs stages') (hstages : stages ≠ [])
    (hreaches : Reaches start signal stages fed said)
    (htransit : InTransit start.length signal 0 words fed said) :
    ∃ fed' said', Reaches start signal stages' fed' said' ∧
      InTransit start.length signal 0 (outs.getLastD words) fed' said' ∧
      said' (start.length - 1) = said (start.length - 1) ++ outs.getLastD words := by
  have hplace : place start.length ([] : List Machine).length = 0 := ite_self 0
  have hreaches' : Reaches start signal ([] ++ stages) fed said := hreaches
  obtain ⟨fed', said', hafter, hwaiting, hlast⟩ := h.reaches hreaches' (hplace ▸ htransit)
  refine ⟨fed', said', hafter, hwaiting, ?_⟩
  rw [hlast, List.getLastD_eq_getLast?, h.getLast?_outs hstages, Option.getD_some]

/-- After a pass that is the last of a drive, the last stage has halted, or there is nothing left to do
for any. -/
theorem Passes.finished {words : List Word} {p : Pipeline} {stages : List Machine}
    {outs : List (List Word)} (h : Passes words p.stages outs stages) (hstages : p.stages ≠ [])
    (hfeedback : p.feedback = true) (hstops : goesOn { p with stages } outs = false)
    (hlength : stages.length = start.length)
    (htransit : InTransit start.length signal 0 (outs.getLastD words) fed said) :
    Finished start.length signal stages fed said := by
  have hlast := h.getLast?_outs hstages
  rw [goesOn, hfeedback, Bool.true_and, Bool.and_eq_false_iff] at hstops
  rcases hstops with hhalted | hsilent
  · -- what the last stage put out in this pass stays undelivered, which does not matter to it
    obtain ⟨stage, hstage⟩ : ∃ stage, stages.getLast? = some stage :=
      ⟨_, List.getLast?_eq_some_getLast (h.stages_ne_nil hstages)⟩
    have hstatus : stage.status = .halted := by simpa [isFinished, hstage] using hhalted
    rw [List.getLast?_eq_getElem?, hlength] at hstage
    exact Or.inl ⟨stage, hstage, by rw [isOver, hstatus]⟩
  · -- the last stage was as silent as all others, so no word waits for the first
    have hnone : outs.getLastD words = [] := by
      have hempty := List.any_eq_false.mp hsilent _ (List.mem_of_getLast? hlast)
      simpa using hempty
    rw [hnone] at htransit
    refine Or.inr fun i stage hstage => ?_
    obtain ⟨hi, -⟩ := List.getElem?_eq_some_iff.mp hstage
    obtain ⟨m, out, hsettles⟩ := h.exists_settles stage (List.mem_of_getElem? hstage)
    exact hsettles.isOver_or_starves.imp_right fun hstarves =>
      ⟨hstarves, htransit.fed_eq (hlength ▸ hi)⟩

/-- A drive is a finished execution of the ring. -/
theorem Drives.reaches {words out : List Word} {p q : Pipeline} (h : Drives words p out q)
    (hfeedback : p.feedback = true) (hstages : p.stages ≠ [])
    (hreaches : Reaches start signal p.stages fed said)
    (htransit : InTransit start.length signal 0 words fed said) :
    ∃ fed' said', Reaches start signal q.stages fed' said' ∧
      Finished start.length signal q.stages fed' said' ∧
      said' (start.length - 1) = said (start.length - 1) ++ out := by
  induction h generalizing fed said with
  | stop hpasses hstops =>
    obtain ⟨fed', said', hafter, hwaiting, hlast⟩ :=
      hpasses.reaches_around hstages hreaches htransit
    exact ⟨fed', said', hafter,
      hpasses.finished hstages hfeedback hstops hafter.length_stages hwaiting, hlast⟩
  | goOn hpasses _ _ ih =>
    obtain ⟨fed₁, said₁, hafter, hwaiting, hlast⟩ :=
      hpasses.reaches_around hstages hreaches htransit
    obtain ⟨fed', said', hend, hfinished, hrest⟩ :=
      ih hfeedback (hpasses.stages_ne_nil hstages) hafter hwaiting
    refine ⟨fed', said', hend, hfinished, ?_⟩
    rw [hrest, hlast, List.append_assoc]

end Drives

/-! ## Taking turns -/

/-- The words that stage `i` puts out when it executes an instruction. -/
def spokenBy (stages : List Machine) (i : Nat) : List Word :=
  match stages[i]? with
  | some stage => stage.step.emission
  | none => []

/-- The stages after stage `i` has executed an instruction; what it puts out is queued for the next
stage at once. -/
def turn (stages : List Machine) (i : Nat) : List Machine :=
  (stages.modify i Machine.step).modify (place stages.length (i + 1)) fun stage =>
    stage.extend (spokenBy stages i)

/-- The stages after each stage that the schedule lists has had a turn. -/
def turns (stages : List Machine) (schedule : List Nat) : List Machine :=
  schedule.foldl turn stages

/-- The words that stage `k` puts out as the stages take turns. -/
def spoken (k : Nat) : List Machine → List Nat → List Word
  | _, [] => []
  | stages, i :: schedule =>
    (if i = k then spokenBy stages i else []) ++ spoken k (turn stages i) schedule

/-- The last stage has halted, or every stage has halted or wants an input word that is not there,
whether or not it has already tried to read it. -/
def HasEnded (stages : List Machine) : Prop :=
  (∃ stage, stages.getLast? = some stage ∧ stage.status = .halted) ∨
    ∀ stage ∈ stages, stage.status = .halted ∨ stage.Starves ∨
      stage.status = .awaitingInput ∧ stage.queue = []

theorem modify_of_getElem? {stages : List Machine} {i : Nat} {stage : Machine}
    (h : stages[i]? = some stage) (f : Machine → Machine) :
    stages.modify i f = stages.set i (f stage) := by
  rw [List.modify_eq_set_getElem?, h]
  rfl

section Turns

variable {start stages : List Machine} {signal : Word} {fed said : Nat → List Word}

/-- A stage that is not there has no turn. -/
theorem turn_of_getElem?_eq_none {k : Nat} (h : stages[k]? = none) : turn stages k = stages := by
  have hsilent : spokenBy stages k = [] := by rw [spokenBy, h]
  have hid : (fun stage : Machine => stage.extend []) = id := funext extend_nil
  rw [turn, hsilent, hid, List.modify_id, List.modify_eq_self (List.getElem?_eq_none_iff.mp h)]

/-- What holds of all stages, and of a stage that is changed if it did before, holds of all stages when
one is changed. -/
theorem forall_mem_modify {P : Machine → Prop} {f : Machine → Machine}
    (h : ∀ stage ∈ stages, P stage) (hf : ∀ stage, P stage → P (f stage)) (i : Nat) :
    ∀ stage ∈ stages.modify i f, P stage := by
  intro stage hmem
  obtain ⟨k, hk⟩ := List.mem_iff_getElem?.mp hmem
  rw [List.getElem?_modify] at hk
  obtain ⟨before, hbefore, rfl⟩ := Option.map_eq_some_iff.mp hk
  have hholds := h before (List.mem_of_getElem? hbefore)
  split
  · exact hf before hholds
  · exact hholds

/-- Coherent stages stay so when they take turns. -/
theorem isCoherent_turns (h : ∀ stage ∈ stages, stage.IsCoherent) (schedule : List Nat) :
    ∀ stage ∈ turns stages schedule, stage.IsCoherent := by
  induction schedule generalizing stages with
  | nil => exact h
  | cons k schedule ih =>
    apply ih
    apply forall_mem_modify
    · exact forall_mem_modify h (fun stage _ => isCoherent_step stage) k
    · exact fun stage hstage => hstage.extend _

/-- A turn is an execution of the ring that leaves no word on its way. -/
theorem Reaches.turn {j : Nat} (h : Reaches start signal stages fed said)
    (htransit : InTransit start.length signal j [] fed said) (k : Nat) :
    ∃ fed', Reaches start signal (turn stages k) fed'
        (Function.update said k (said k ++ spokenBy stages k)) ∧
      InTransit start.length signal j [] fed'
        (Function.update said k (said k ++ spokenBy stages k)) := by
  cases hstage : stages[k]? with
  | none =>
    have hsilent : spokenBy stages k = [] := by rw [spokenBy, hstage]
    rw [turn_of_getElem?_eq_none hstage, hsilent, List.append_nil, Function.update_eq_self]
    exact ⟨fed, h, htransit⟩
  | some stage =>
    have hspoken : spokenBy stages k = stage.step.emission := by rw [spokenBy, hstage]
    obtain ⟨hk, -⟩ := List.getElem?_eq_some_iff.mp hstage
    -- the next stage may be the same one, so it is looked up after the step
    obtain ⟨hstep, hwaiting⟩ := h.step (htransit.of_nil k) hstage
    obtain ⟨behind, hbehind⟩ : ∃ behind,
        (stages.set k stage.step)[place start.length (k + 1)]? = some behind := by
      refine ⟨_, List.getElem?_eq_getElem ?_⟩
      rw [List.length_set, h.length_stages]
      exact place_lt (h.length_stages ▸ hk) _
    obtain ⟨hdelivered, hnone⟩ := hstep.deliver hwaiting hbehind
    have hturn : Pipeline.turn stages k = (stages.set k stage.step).set
        (place start.length (k + 1)) (behind.extend stage.step.emission) := by
      rw [Pipeline.turn, hspoken, modify_of_getElem? hstage, h.length_stages,
        modify_of_getElem? hbehind]
    rw [hturn, hspoken]
    exact ⟨_, hdelivered, hnone.of_nil j⟩

/-- Turns are an execution of the ring that leaves no word on its way. -/
theorem Reaches.turns {j : Nat} (h : Reaches start signal stages fed said)
    (htransit : InTransit start.length signal j [] fed said) (schedule : List Nat) :
    ∃ fed' said', Reaches start signal (turns stages schedule) fed' said' ∧
      InTransit start.length signal j [] fed' said' ∧
      ∀ i, said' i = said i ++ spoken i stages schedule := by
  induction schedule generalizing stages fed said with
  | nil => exact ⟨fed, said, h, htransit, fun i => (List.append_nil _).symm⟩
  | cons k schedule ih =>
    obtain ⟨fed₁, hturn, htransit₁⟩ := h.turn htransit k
    obtain ⟨fed', said', hturns, htransit', hsaid⟩ := ih hturn htransit₁
    refine ⟨fed', said', hturns, htransit', fun i => ?_⟩
    rw [hsaid, spoken, ← List.append_assoc]
    split
    · next hik => rw [hik, Function.update_self]
    · next hik => rw [Function.update_of_ne (Ne.symm hik), List.append_nil]

/-- When turns have come to an end, the ring is finished. -/
theorem HasEnded.finished {j : Nat} (h : HasEnded stages)
    (hcoherent : ∀ stage ∈ stages, stage.IsCoherent) (hlength : stages.length = start.length)
    (htransit : InTransit start.length signal j [] fed said) :
    Finished start.length signal stages fed said := by
  rcases h with ⟨stage, hlast, hhalted⟩ | hstuck
  · rw [List.getLast?_eq_getElem?, hlength] at hlast
    exact Or.inl ⟨stage, hlast, by rw [isOver, hhalted]⟩
  · refine Or.inr fun i stage hstage => ?_
    have hmem := List.mem_of_getElem? hstage
    obtain ⟨hi, -⟩ := List.getElem?_eq_some_iff.mp hstage
    have hall := htransit.fed_eq (hlength ▸ hi)
    rcases hstuck stage hmem with hhalted | hstarves | ⟨hwaiting, hqueue⟩
    · exact Or.inl (by rw [isOver, hhalted])
    · exact Or.inr ⟨hstarves, hall⟩
    · exact Or.inr ⟨(hcoherent stage hmem).starves hwaiting hqueue, hall⟩

end Turns

/-- **The answer does not depend on the order in which the stages are driven.** If a pipeline with
feedback answers a signal, then from the same stages, with the signal queued for the first, any schedule
of single instructions that ends with the last stage halted, or with every stage halted or without the
word that it wants, makes the last stage put out the words that it put out for the answer; and the answer
is the last of them. -/
theorem answer_agrees_with_turns {p q : Pipeline} {fuel : Nat} {signal : Word} {answer : Option Word}
    (hdriven : p.Driven) (hstages : p.stages ≠ []) (hfeedback : p.feedback = true)
    (hrun : p.run fuel signal = some (.ok answer, q)) (schedule : List Nat)
    (hend : HasEnded (turns (p.stages.modify 0 fun stage => stage.push signal) schedule)) :
    spoken (p.stages.length - 1) (p.stages.modify 0 fun stage => stage.push signal) schedule =
        p.emitted fuel signal ∧
      answer = (p.emitted fuel signal).getLast? := by
  obtain ⟨hdrives, hanswer⟩ := drives_of_run hstages hrun
  refine ⟨?_, hanswer⟩
  obtain ⟨fed, said, hreaches, hfinished, hsaid⟩ :=
    hdrives.reaches hfeedback hstages .start (inTransit_start p.stages.length signal)
  obtain ⟨first, hfirst⟩ : ∃ first, p.stages[0]? = some first :=
    ⟨_, List.getElem?_eq_getElem (List.length_pos_iff.mpr hstages)⟩
  have hcoherent : ∀ stage ∈ p.stages.modify 0 fun stage => stage.push signal, stage.IsCoherent :=
    forall_mem_modify hdriven.isCoherent (fun stage hstage => hstage.extend [signal]) 0
  have hqueued : p.stages.modify 0 (fun stage => stage.push signal) =
      p.stages.set 0 (first.extend [signal]) := modify_of_getElem? hfirst _
  rw [hqueued] at hend hcoherent ⊢
  -- the other way begins with the delivery of the signal
  obtain ⟨hstarted, hdelivered⟩ :=
    Reaches.deliver .start (inTransit_start p.stages.length signal) hfirst
  obtain ⟨fed', said', hreaches', htransit, hsaid'⟩ := hstarted.turns hdelivered schedule
  have hfinished' := hend.finished (isCoherent_turns hcoherent schedule) hreaches'.length_stages
    htransit
  have hagree := hreaches'.said_last_eq hreaches hfinished' hfinished
  rwa [hsaid', hsaid] at hagree

/-- Two stages that take turns at incrementing a word, twice each, and try in vain to read in between. -/
theorem answer_agrees_with_turns_alternating :
    let program : Program :=
      ⟨[3, 100, 3, 101, 101, 1, 101, 101, 4, 101, 3, 101, 101, 1, 101, 101, 4, 101, 99]⟩
    let p := ofProgram program [5, 6] {} true
    let schedule := (List.replicate 12 [0, 1]).flatten
    p.Driven ∧ p.stages ≠ [] ∧ p.feedback = true ∧
      (∃ q, p.run 9 0 = some (.ok (some 4), q)) ∧
      HasEnded (turns (p.stages.modify 0 fun stage => stage.push 0) schedule) ∧
      spoken 1 (p.stages.modify 0 fun stage => stage.push 0) schedule = p.emitted 9 0 ∧
      p.emitted 9 0 = [2, 4] := by
  intro program p schedule
  have hdriven : p.Driven := .ofProgram program [5, 6] {} true
  have hstages : p.stages ≠ [] := List.cons_ne_nil _ _
  have hanswer : (p.run 9 0).map Prod.fst = some (.ok (some 4)) := by decide +kernel
  obtain ⟨⟨-, q⟩, hrun, rfl⟩ := Option.map_eq_some_iff.mp hanswer
  have hhalted : (turns (p.stages.modify 0 fun stage => stage.push 0) schedule).getLast?.map
      status = some .halted := by decide +kernel
  obtain ⟨stage, hlast, hstatus⟩ := Option.map_eq_some_iff.mp hhalted
  have hend : HasEnded (turns (p.stages.modify 0 fun stage => stage.push 0) schedule) :=
    Or.inl ⟨stage, hlast, hstatus⟩
  obtain ⟨hspoken, -⟩ := answer_agrees_with_turns hdriven hstages rfl hrun schedule hend
  exact ⟨hdriven, hstages, rfl, ⟨q, hrun⟩, hend, hspoken, by decide +kernel⟩

end Intcode.Pipeline
