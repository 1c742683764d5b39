import Intcode.Proofs.Pipeline.Composition

/-!
# Faults in pipelines

A fault in a stage ends the drive. It leaves the pipeline in the middle of a pass: the stages before
have moved on, their words are lost, and the stages behind were not reached. The pipeline can still be
given signals, and the stages before can still move, and fault themselves. But the faulted stage stays
in the way: whatever is driven through the pipeline afterwards, a drive that comes back does so with a
fault, of that stage or of one before it, and nothing behind that stage changes any more.

A drive need not come back. A stage before the faulted one is still executed, and may go on forever
where it came to rest before (`call_hangs_after_fault`). Nothing else keeps a drive from coming back.

## Shape of the proof

A pass that meets a fault is described by `Breaks`, which names the stage, and a drive that does by
`Fails`. That a stage has faulted is kept by every pass (`Breaks.faultAt_eq_some`), keeps a pass from
getting behind that stage (`Breaks.le_of_faultAt`), and leaves one reason for which a pass may not come
back: a stage before executes forever (`Hangs`). The calls that follow are an induction on these three.
-/

namespace Intcode.Pipeline

open Machine

variable {words : List Word} {stages stages' : List Machine} {k : Nat} {fault : Fault}

/-! ## Passes that meet a fault -/

/-- The fault of stage `k`. -/
def faultAt (stages : List Machine) (k : Nat) : Option Fault :=
  stages[k]?.bind Machine.fault?

/-- Draining `stages` in order, the first with `words` and each other one with the words of the one
before, ends with a fault in stage `k`, the first one that meets any; the stages are left as
`stages'`. -/
inductive Breaks : List Word → List Machine → Nat → Fault → List Machine → Prop
  | here {words out : List Word} {stage stage' : Machine} {fault : Fault} (rest : List Machine) :
      (stage.extend words).Settles out stage' → stage'.fault? = some fault →
      Breaks words (stage :: rest) 0 fault (stage' :: rest)
  | later {words out : List Word} {stage stage' : Machine} {rest rest' : List Machine} {k : Nat}
      {fault : Fault} :
      (stage.extend words).Settles out stage' → stage'.fault? = none →
      Breaks out rest k fault rest' → Breaks words (stage :: rest) (k + 1) fault (stage' :: rest')

/-- Draining `stages` in order, the first with `words` and each other one with the words of the one
before, never gets behind stage `k`, which executes forever; the stages before it meet no fault. -/
inductive Hangs : List Word → List Machine → Nat → Prop
  | here {words : List Word} {stage : Machine} (rest : List Machine) :
      (∀ fuel, (stage.extend words).drain fuel = none) → Hangs words (stage :: rest) 0
  | later {words out : List Word} {stage stage' : Machine} {rest : List Machine} {k : Nat} :
      (stage.extend words).Settles out stage' → stage'.fault? = none →
      Hangs out rest k → Hangs words (stage :: rest) (k + 1)

theorem breaks_of_pass {fuel : Nat} (h : pass fuel words stages = some (.error fault, stages')) :
    ∃ k, Breaks words stages k fault stages' := by
  induction stages generalizing words stages' with
  | nil => cases h
  | cons stage rest ih =>
    rw [pass] at h
    split at h
    · cases h
    · next out stage' hdrain =>
      have hsettles := exists_drain_iff.mp ⟨fuel, hdrain⟩
      split at h
      · next hfault =>
        cases h
        exact ⟨0, .here rest hsettles hfault⟩
      · next hfault =>
        split at h
        · cases h
        · next hpass =>
          cases h
          obtain ⟨k, hbreaks⟩ := ih hpass
          exact ⟨k + 1, .later hsettles hfault hbreaks⟩
        · cases h

theorem Breaks.exists_pass (h : Breaks words stages k fault stages') :
    ∃ fuel, ∀ more, fuel ≤ more → pass more words stages = some (.error fault, stages') := by
  induction h with
  | here rest hsettles hfault =>
    obtain ⟨fuel, hdrain⟩ := exists_drain_iff.mpr hsettles
    exact ⟨fuel, fun more hmore => by simp only [pass, drain_mono hdrain hmore, hfault]⟩
  | later hsettles hfault _ ih =>
    obtain ⟨first, hfirst⟩ := exists_drain_iff.mpr hsettles
    obtain ⟨later, hlater⟩ := ih
    refine ⟨max first later, fun more hmore => ?_⟩
    have hdrain := drain_mono hfirst (Nat.le_trans (Nat.le_max_left _ _) hmore)
    have hpass := hlater more (Nat.le_trans (Nat.le_max_right _ _) hmore)
    simp only [pass, hdrain, hfault, hpass]

/-! ## What a pass keeps -/

/-- A faulted machine is left as it is, whatever it is given. -/
theorem settles_extend_of_fault? {m : Machine} (hfault : m.fault? = some fault)
    (words : List Word) : (m.extend words).Settles [] (m.extend words) := by
  apply settles_of_isOver
  rw [isOver, status_extend]
  cases hs : m.status <;> simp_all [fault?]

theorem fault?_of_settles_extend {m n : Machine} {out : List Word}
    (h : (m.extend words).Settles out n) (hfault : m.fault? = some fault) :
    n.fault? = some fault := by
  obtain ⟨-, rfl⟩ := h.unique (settles_extend_of_fault? hfault words)
  exact hfault

/-- A pass that meets no fault finds none. -/
theorem Passes.faultAt_eq_none {outs : List (List Word)} (h : Passes words stages outs stages')
    (k : Nat) : faultAt stages k = none := by
  induction h generalizing k with
  | nil words => rfl
  | cons hsettles hfault _ ih =>
    cases k with
    | zero => exact hsettles.fault?_eq_none hfault
    | succ k => exact ih k

/-- The stage that ends a pass is the first one that has a fault afterwards. -/
theorem Breaks.isFirst (h : Breaks words stages k fault stages') :
    faultAt stages' k = some fault ∧ ∀ j, j < k → faultAt stages' j = none := by
  induction h with
  | here rest _ hfault => exact ⟨hfault, fun j hj => absurd hj (Nat.not_lt_zero j)⟩
  | later _ hfault _ ih =>
    refine ⟨ih.1, fun j hj => ?_⟩
    cases j with
    | zero => exact hfault
    | succ j => exact ih.2 j (Nat.lt_of_succ_lt_succ hj)

/-- The stages behind the one that ends a pass are not touched. -/
theorem Breaks.getElem?_eq (h : Breaks words stages k fault stages') {i : Nat} (hi : k < i) :
    stages'[i]? = stages[i]? := by
  induction h generalizing i with
  | here rest _ _ =>
    obtain ⟨i, rfl⟩ := Nat.exists_eq_add_one_of_ne_zero (Nat.ne_of_gt hi)
    rfl
  | later _ _ _ ih =>
    obtain ⟨i, rfl⟩ := Nat.exists_eq_add_one_of_ne_zero (Nat.ne_zero_of_lt hi)
    exact ih (Nat.lt_of_succ_lt_succ hi)

section Faulted

variable {first : Fault} {i : Nat}

/-- A pass does not get behind a stage that has faulted. -/
theorem Breaks.le_of_faultAt (h : Breaks words stages k fault stages')
    (hfaulted : faultAt stages i = some first) : k ≤ i ∧ (k = i → fault = first) := by
  induction h generalizing i with
  | here rest hsettles hfault =>
    refine ⟨Nat.zero_le i, ?_⟩
    rintro rfl
    exact Option.some.inj (hfault.symm.trans (fault?_of_settles_extend hsettles hfaulted))
  | later hsettles hfault _ ih =>
    cases i with
    | zero => cases hfault.symm.trans (fault?_of_settles_extend hsettles hfaulted)
    | succ i =>
      obtain ⟨hle, heq⟩ := ih hfaulted
      exact ⟨Nat.succ_le_succ hle, fun h => heq (Nat.succ.inj h)⟩

/-- A stage that has faulted stays so. -/
theorem Breaks.faultAt_eq_some (h : Breaks words stages k fault stages')
    (hfaulted : faultAt stages i = some first) : faultAt stages' i = some first := by
  induction h generalizing i with
  | here rest hsettles _ =>
    cases i with
    | zero => exact fault?_of_settles_extend hsettles hfaulted
    | succ i => exact hfaulted
  | later hsettles _ _ ih =>
    cases i with
    | zero => exact fault?_of_settles_extend hsettles hfaulted
    | succ i => exact ih hfaulted

/-- A pass through stages of which one has faulted meets a fault, unless a stage before that one
executes forever. -/
theorem breaks_or_hangs (words : List Word) (hfaulted : faultAt stages i = some first) :
    (∃ k fault stages', Breaks words stages k fault stages') ∨ ∃ j, j < i ∧ Hangs words stages j := by
  induction stages generalizing words i with
  | nil => cases hfaulted
  | cons stage rest ih =>
    by_cases hcomes : ∃ r fuel, (stage.extend words).drain fuel = some r
    · obtain ⟨⟨out, stage'⟩, hdrain⟩ := hcomes
      have hsettles := exists_drain_iff.mp hdrain
      cases hfault : stage'.fault? with
      | some fault => exact Or.inl ⟨0, fault, _, .here rest hsettles hfault⟩
      | none =>
        cases i with
        | zero => cases hfault.symm.trans (fault?_of_settles_extend hsettles hfaulted)
        | succ i =>
          rcases ih out hfaulted with ⟨k, fault, rest', hbreaks⟩ | ⟨j, hj, hhangs⟩
          · exact Or.inl ⟨k + 1, fault, _, .later hsettles hfault hbreaks⟩
          · exact Or.inr ⟨j + 1, Nat.succ_lt_succ hj, .later hsettles hfault hhangs⟩
    · have hnever (fuel : Nat) : (stage.extend words).drain fuel = none :=
        Option.eq_none_iff_forall_ne_some.mpr fun r hr => hcomes ⟨r, fuel, hr⟩
      cases i with
      | zero =>
        -- a stage that has faulted comes to rest at once
        have hsettles := settles_extend_of_fault? hfaulted words
        obtain ⟨fuel, hdrain⟩ := exists_drain_iff.mpr hsettles
        cases (hnever fuel).symm.trans hdrain
      | succ i => exact Or.inr ⟨0, Nat.succ_pos i, .here rest hnever⟩

end Faulted

theorem Hangs.pass_eq_none (h : Hangs words stages k) (fuel : Nat) : pass fuel words stages = none := by
  induction h with
  | here rest hnever => simp only [pass, hnever fuel]
  | @later words out stage stage' rest k hsettles hfault _ ih =>
    rw [pass]
    cases hdrain : (stage.extend words).drain fuel with
    | none => rfl
    | some r =>
      obtain ⟨rfl, rfl⟩ := hsettles.unique (exists_drain_iff.mp ⟨fuel, hdrain⟩)
      simp only [hfault, ih]

/-! ## Drives that meet a fault -/

/-- Passes through `p`, the first with `words`, go on until one of them ends with a fault in stage `k`;
the pipeline is left as `q`. -/
inductive Fails : List Word → Pipeline → Nat → Fault → Pipeline → Prop
  | here {words : List Word} {p : Pipeline} {k : Nat} {fault : Fault} {stages : List Machine} :
      Breaks words p.stages k fault stages → Fails words p k fault { p with stages }
  | later {words : List Word} {p q : Pipeline} {outs : List (List Word)} {stages : List Machine}
      {k : Nat} {fault : Fault} :
      Passes words p.stages outs stages → goesOn { p with stages } outs = true →
      Fails (outs.getLastD words) { p with stages } k fault q → Fails words p k fault q

variable {p q : Pipeline} {signal : Word}

theorem fails_of_cycle {fuel rounds : Nat} {last : Option Word}
    (h : cycle fuel rounds words last p = some (.error fault, q)) : ∃ k, Fails words p k fault q := by
  induction rounds generalizing words last p with
  | zero => cases h
  | succ rounds ih =>
    rw [cycle] at h
    split at h
    · cases h
    · next hpass =>
      cases h
      obtain ⟨k, hbreaks⟩ := breaks_of_pass hpass
      exact ⟨k, .here hbreaks⟩
    · next carry stages hpass =>
      obtain ⟨outs, hpasses, rfl⟩ := passes_of_pass hpass
      dsimp only at h
      split at h
      · next hgoesOn =>
        obtain ⟨k, hfails⟩ := ih h
        exact ⟨k, .later hpasses hgoesOn hfails⟩
      · cases h

theorem Fails.exists_cycle (h : Fails words p k fault q) :
    ∃ bound, ∀ fuel rounds, bound ≤ fuel → bound ≤ rounds → ∀ last,
      cycle fuel rounds words last p = some (.error fault, q) := by
  induction h with
  | here hbreaks =>
    obtain ⟨bound, hpass⟩ := hbreaks.exists_pass
    refine ⟨bound + 1, fun fuel rounds hfuel hrounds last => ?_⟩
    obtain ⟨rounds, rfl⟩ := Nat.exists_eq_add_one_of_ne_zero (Nat.ne_zero_of_lt hrounds)
    rw [cycle, hpass fuel (Nat.le_of_succ_le hfuel)]
  | later hpasses hgoesOn _ ih =>
    obtain ⟨first, hfirst⟩ := hpasses.exists_pass
    obtain ⟨later, hlater⟩ := ih
    refine ⟨max first later + 1, fun fuel rounds hfuel hrounds last => ?_⟩
    obtain ⟨rounds, rfl⟩ := Nat.exists_eq_add_one_of_ne_zero (Nat.ne_zero_of_lt hrounds)
    rw [cycle, hfirst fuel (by omega)]
    exact (if_pos hgoesOn).trans (hlater fuel rounds (by omega) (by omega) _)

theorem Fails.stages_ne_nil (h : Fails words p k fault q) : p.stages ≠ [] := by
  intro hnil
  cases h with
  | here hbreaks =>
    rw [hnil] at hbreaks
    cases hbreaks
  | later hpasses hgoesOn _ =>
    rw [hnil] at hpasses
    cases hpasses
    simp [goesOn] at hgoesOn

/-- A drive comes back with a fault exactly if a stage raises it. -/
theorem exists_run_iff_fails :
    (∃ fuel, p.run fuel signal = some (.error fault, q)) ↔ ∃ k, Fails [signal] p k fault q := by
  constructor
  · rintro ⟨fuel, h⟩
    rw [run] at h
    split at h
    · cases h
    · exact fails_of_cycle h
  · rintro ⟨k, h⟩
    obtain ⟨bound, hcycle⟩ := h.exists_cycle
    have hempty : ¬ p.stages.isEmpty = true := fun hnil => h.stages_ne_nil (List.isEmpty_iff.mp hnil)
    refine ⟨bound, ?_⟩
    rw [run, if_neg hempty]
    exact hcycle bound bound (Nat.le_refl _) (Nat.le_refl _) none

theorem Fails.isFirst (h : Fails words p k fault q) :
    faultAt q.stages k = some fault ∧ ∀ j, j < k → faultAt q.stages j = none := by
  induction h with
  | here hbreaks => exact hbreaks.isFirst
  | later _ _ _ ih => exact ih

/-- The stage that raises the fault can be told from what is left: it is the first one with a fault. -/
theorem Fails.eq_of_isFirst {j : Nat} {first : Fault} (h : Fails words p k fault q)
    (hj : faultAt q.stages j = some first) (hbefore : ∀ i, i < j → faultAt q.stages i = none) :
    j = k := by
  rcases Nat.lt_trichotomy j k with hlt | heq | hlt
  · cases (h.isFirst.2 j hlt).symm.trans hj
  · exact heq
  · cases (hbefore k hlt).symm.trans h.isFirst.1

/-! ## Calls after a fault -/

/-- The signals, driven through `p` one after the other, all come back with these answers, and leave
`q`. -/
inductive Calls : Pipeline → List Word → List (Except Fault (Option Word)) → Pipeline → Prop
  | nil (p : Pipeline) : Calls p [] [] p
  | cons {p l q : Pipeline} {fuel : Nat} {signal : Word} {signals : List Word}
      {answer : Except Fault (Option Word)} {answers : List (Except Fault (Option Word))} :
      p.run fuel signal = some (answer, l) → Calls l signals answers q →
      Calls p (signal :: signals) (answer :: answers) q

section Faulted

variable {first : Fault} {i fuel : Nat} {answer : Except Fault (Option Word)}

/-- A drive through a pipeline of which a stage has faulted is a single pass that meets a fault. -/
theorem breaks_of_run (hfaulted : faultAt p.stages i = some first)
    (h : p.run fuel signal = some (answer, q)) :
    ∃ k fault stages, answer = .error fault ∧ q = { p with stages } ∧
      Breaks [signal] p.stages k fault stages := by
  rw [run] at h
  split at h
  · next hnil =>
    rw [List.isEmpty_iff.mp hnil] at hfaulted
    cases hfaulted
  · cases fuel with
    | zero => cases h
    | succ fuel =>
      rw [cycle] at h
      split at h
      · cases h
      · next hpass =>
        cases h
        obtain ⟨k, hbreaks⟩ := breaks_of_pass hpass
        exact ⟨k, _, _, rfl, rfl, hbreaks⟩
      · next hpass =>
        obtain ⟨outs, hpasses, -⟩ := passes_of_pass hpass
        cases (hpasses.faultAt_eq_none i).symm.trans hfaulted

/-- Such a drive comes back unless a stage before that one executes forever. -/
theorem run_eq_none_iff (hfaulted : faultAt p.stages i = some first) (signal : Word) :
    (∀ fuel, p.run fuel signal = none) ↔ ∃ j, j < i ∧ Hangs [signal] p.stages j := by
  constructor
  · intro hnever
    refine (breaks_or_hangs [signal] hfaulted).resolve_left ?_
    rintro ⟨k, fault, stages, hbreaks⟩
    obtain ⟨fuel, hrun⟩ := exists_run_iff_fails.mpr ⟨k, .here hbreaks⟩
    cases (hnever fuel).symm.trans hrun
  · rintro ⟨j, -, hhangs⟩ fuel
    have hempty : ¬ p.stages.isEmpty = true := by
      intro hnil
      rw [List.isEmpty_iff.mp hnil] at hhangs
      cases hhangs
    rw [run, if_neg hempty]
    cases fuel with
    | zero => rfl
    | succ fuel => rw [cycle, hhangs.pass_eq_none]

/-- Calls leave a faulted stage faulted and do not touch the stages behind it. -/
theorem Calls.keeps {signals : List Word} {answers : List (Except Fault (Option Word))}
    (h : Calls p signals answers q) (hfaulted : faultAt p.stages k = some fault) :
    faultAt q.stages k = some fault ∧ ∀ i, k < i → q.stages[i]? = p.stages[i]? := by
  induction h with
  | nil p => exact ⟨hfaulted, fun _ _ => rfl⟩
  | cons hrun _ ih =>
    obtain ⟨j, fault', stages, -, rfl, hbreaks⟩ := breaks_of_run hfaulted hrun
    obtain ⟨hkept, hsame⟩ := ih (hbreaks.faultAt_eq_some hfaulted)
    refine ⟨hkept, fun i hi => (hsame i hi).trans ?_⟩
    exact hbreaks.getElem?_eq (Nat.lt_of_le_of_lt (hbreaks.le_of_faultAt hfaulted).1 hi)

end Faulted

/-- **Faults in a pipeline are final and stay where they are.** If a drive comes back with a fault, one
stage `k` has raised it. Let any calls follow. Then the stages behind `k` are as that drive left them.
And with whatever signal the next call is made: if it comes back, it does so with a fault, raised by
stage `k` or one before it, and by stage `k` only with the same fault; it fails to come back only if a
stage before `k` executes forever. -/
theorem faults_are_final {p l : Pipeline} {fuel : Nat} {signal : Word} {fault : Fault}
    (hrun : p.run fuel signal = some (.error fault, l)) :
    ∃ k, (∀ j, Fails [signal] p j fault l ↔ j = k) ∧
      ∀ {signals : List Word} {answers : List (Except Fault (Option Word))} {q : Pipeline},
        Calls l signals answers q → ∀ next : Word,
          (∀ i, k < i → q.stages[i]? = l.stages[i]?) ∧
          (∀ fuel answer r, q.run fuel next = some (answer, r) →
            ∃ j fault', answer = .error fault' ∧ Fails [next] q j fault' r ∧ j ≤ k ∧
              (j = k → fault' = fault)) ∧
          ((∀ fuel, q.run fuel next = none) ↔ ∃ j, j < k ∧ Hangs [next] q.stages j) := by
  obtain ⟨k, hfails⟩ := exists_run_iff_fails.mp ⟨fuel, hrun⟩
  refine ⟨k, fun j => ⟨fun hj => hfails.eq_of_isFirst hj.isFirst.1 hj.isFirst.2,
    fun hj => hj ▸ hfails⟩, ?_⟩
  intro signals answers q hcalls next
  obtain ⟨hfaulted, hsame⟩ := hcalls.keeps hfails.isFirst.1
  refine ⟨hsame, ?_, run_eq_none_iff hfaulted next⟩
  intro fuel answer r hrun
  obtain ⟨j, fault', stages, rfl, rfl, hbreaks⟩ := breaks_of_run hfaulted hrun
  obtain ⟨hle, hsameFault⟩ := hbreaks.le_of_faultAt hfaulted
  exact ⟨j, fault', rfl, .here hbreaks, hle, hsameFault⟩

/-- Three stages that execute the words they read. The first one answers 104 with a 77, which is no
instruction, so the second one faults, again and again; in the end the first one faults over a 55. -/
theorem faults_are_final_three :
    let p := ofProgram ⟨[3, 20, 3, 4, 0, 77, 1105, 1, 2]⟩ [0, 0, 0] {} true
    let fault : Fault := ⟨.unknownOpcode 77, 4⟩
    ∃ l q, p.run 9 104 = some (.error fault, l) ∧ Fails [104] p 1 fault l ∧
      Calls l [104] [.error fault] q ∧ q.stages[2]? = l.stages[2]? ∧
      ∃ r, q.run 9 55 = some (.error ⟨.unknownOpcode 55, 4⟩, r) ∧
        Fails [55] q 0 ⟨.unknownOpcode 55, 4⟩ r := by
  intro p fault
  have hfirst : (p.run 9 104).map (fun r => (r.1, faultAt r.2.stages 0, faultAt r.2.stages 1)) =
      some (.error fault, none, some fault) := by decide +kernel
  have hsecond : ((p.run 9 104).bind fun r => r.2.run 9 104).map Prod.fst =
      some (.error fault) := by decide +kernel
  have hthird : (((p.run 9 104).bind fun r => r.2.run 9 104).bind fun r => r.2.run 9 55).map
      Prod.fst = some (.error ⟨.unknownOpcode 55, 4⟩) := by decide +kernel
  obtain ⟨⟨answer, l⟩, hl, hfaults⟩ := Option.map_eq_some_iff.mp hfirst
  simp only [Prod.mk.injEq] at hfaults
  obtain ⟨rfl, hnone, hfault⟩ := hfaults
  rw [hl, Option.bind_some] at hsecond hthird
  obtain ⟨⟨answer, q⟩, hq, rfl⟩ := Option.map_eq_some_iff.mp hsecond
  rw [hq, Option.bind_some] at hthird
  obtain ⟨⟨answer, r⟩, hr, rfl⟩ := Option.map_eq_some_iff.mp hthird
  have hcalls : Calls l [104] [.error fault] q := .cons hq (.nil q)
  obtain ⟨k, hraised, hlater⟩ := faults_are_final hl
  -- the first stage has no fault yet, so it was the second one that raised it
  obtain rfl : 1 = k := ((hraised k).mpr rfl).eq_of_isFirst hfault fun i hi => by
    rwa [Nat.lt_one_iff.mp hi]
  obtain ⟨hsame, hcomesBack, -⟩ := hlater hcalls 55
  obtain ⟨j, fault', hfault', hfails, hle, hsameFault⟩ := hcomesBack 9 _ r hr
  cases hfault'
  have hother : (⟨.unknownOpcode 55, 4⟩ : Fault) ≠ ⟨.unknownOpcode 77, 4⟩ := by decide
  have hj : j ≠ 1 := fun hj => hother (hsameFault hj)
  obtain rfl : j = 0 := by omega
  exact ⟨l, q, hl, (hraised 1).mpr rfl, hcalls, hsame 2 (Nat.lt_succ_self 1), r, hr, hfails⟩

/-- **A call after a fault need not come back.** Two stages read a phase and a signal. With phase 1, the
second one runs into a 77, which is no instruction. With phase 0, the first one puts out a word and
waits for another signal, and when it has read that, it jumps to where it stands, over and over. -/
theorem call_hangs_after_fault :
    let p := ofProgram ⟨[3, 100, 3, 101, 1005, 100, 14, 104, 1, 3, 102, 1105, 1, 11, 77]⟩ [0, 1] {}
      false
    let fault : Fault := ⟨.unknownOpcode 77, 14⟩
    ∃ l, p.run 9 5 = some (.error fault, l) ∧ Fails [5] p 1 fault l ∧ Hangs [6] l.stages 0 ∧
      ∀ fuel, l.run fuel 6 = none := by
  intro p fault
  have hfirst : (p.run 9 5).map (fun r => (r.1, faultAt r.2.stages 0, faultAt r.2.stages 1)) =
      some (.error fault, none, some fault) := by decide +kernel
  have hsecond : ((p.run 9 5).bind fun r => r.2.stages.head?).map (fun stage =>
      let jumping := (stage.extend [6]).step
      (jumping.isAtRest, decide (jumping.step = jumping))) = some (false, true) := by decide +kernel
  obtain ⟨⟨answer, l⟩, hl, hfaults⟩ := Option.map_eq_some_iff.mp hfirst
  simp only [Prod.mk.injEq] at hfaults
  obtain ⟨rfl, hnone, hfault⟩ := hfaults
  obtain ⟨k, hfails⟩ := exists_run_iff_fails.mp ⟨9, hl⟩
  obtain rfl : 1 = k := hfails.eq_of_isFirst hfault fun i hi => by rwa [Nat.lt_one_iff.mp hi]
  rw [hl, Option.bind_some] at hsecond
  obtain ⟨stage, hstage, hjumping⟩ := Option.map_eq_some_iff.mp hsecond
  simp only [Prod.mk.injEq, decide_eq_true_eq] at hjumping
  obtain ⟨hmoves, hstep⟩ := hjumping
  obtain ⟨rest, hstages⟩ := List.head?_eq_some_iff.mp hstage
  have hforever (k : Nat) : (step^[k + 1] (stage.extend [6])).isAtRest = false := by
    rw [Function.iterate_succ_apply, Function.iterate_fixed hstep, hmoves]
  have hhangs : Hangs [6] l.stages 0 := by
    rw [hstages]
    exact .here rest (drain_eq_none_iff.mpr hforever)
  exact ⟨l, hl, hfails, hhangs, (run_eq_none_iff hfault 6).mpr ⟨0, Nat.one_pos, hhangs⟩⟩

end Intcode.Pipeline
