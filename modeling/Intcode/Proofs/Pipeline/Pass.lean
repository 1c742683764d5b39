import Intcode.Pipeline
import Intcode.Proofs.Machine.Streams

/-!
# Passes through a pipeline

A pass that meets no fault is described by `Passes`: what each stage was given, put out and was left
as, in terms of `Machine.Settles` and without a bound. A drive that meets no fault is one pass or
several, and `Drives` lists them. Both are tied to the functions that are run (`passes_of_pass`,
`Passes.exists_pass`, `drives_of_cycle`).

A driver learns from a drive no more than the last word that the last stage put out. The words before
it are `Pipeline.emitted`; like the answer, they are collected pass by pass.
-/

namespace Intcode.Pipeline

open Machine

/-! ## One pass -/

/-- Draining `stages` in order, the first with `words` and each other one with the words of the one
before, meets no fault; the stages put out `outs` and are left as `stages'`. -/
inductive Passes : List Word → List Machine → List (List Word) → List Machine → Prop
  | nil (words : List Word) : Passes words [] [] []
  | cons {words out : List Word} {stage stage' : Machine} {stages stages' : List Machine}
      {outs : List (List Word)} :
      (stage.extend words).Settles out stage' → stage'.fault? = none →
      Passes out stages outs stages' → Passes words (stage :: stages) (out :: outs) (stage' :: stages')

/-- What a pass hands on when its stages have put out `outs`. -/
def carryOf (words : List Word) (outs : List (List Word)) : Carry :=
  ⟨outs.getLastD words, outs.any fun out => !out.isEmpty⟩

theorem passes_of_pass {fuel : Nat} {words : List Word} {stages stages' : List Machine}
    {carry : Carry} (h : pass fuel words stages = some (.ok carry, stages')) :
    ∃ outs, Passes words stages outs stages' ∧ carry = carryOf words outs := by
  induction stages generalizing words stages' carry with
  | nil =>
    rw [pass] at h
    cases h
    exact ⟨[], .nil words, rfl⟩
  | cons stage rest ih =>
    rw [pass] at h
    split at h
    · cases h
    · next out stage' hdrain =>
      split at h
      · cases h
      · next hfault =>
        split at h
        · cases h
        · cases h
        · next carry' rest' hpass =>
          cases h
          obtain ⟨outs, hrest, rfl⟩ := ih hpass
          refine ⟨out :: outs, .cons (exists_drain_iff.mp ⟨fuel, hdrain⟩) hfault hrest, ?_⟩
          rw [carryOf, carryOf, List.getLastD_cons, List.any_cons]

theorem Passes.exists_pass {words : List Word} {stages stages' : List Machine}
    {outs : List (List Word)} (h : Passes words stages outs stages') :
    ∃ fuel, ∀ more, fuel ≤ more →
      pass more words stages = some (.ok (carryOf words outs), stages') := by
  induction h with
  | nil words => exact ⟨0, fun _ _ => rfl⟩
  | @cons words out stage stage' stages stages' outs hsettles hfault _ ih =>
    obtain ⟨first, hfirst⟩ := exists_drain_iff.mpr hsettles
    obtain ⟨later, hlater⟩ := ih
    refine ⟨max first later, fun more hmore => ?_⟩
    have hdrain := drain_mono hfirst (Nat.le_trans (Nat.le_max_left _ _) hmore)
    have hpass := hlater more (Nat.le_trans (Nat.le_max_right _ _) hmore)
    simp only [pass, hdrain, hfault, hpass, carryOf, List.getLastD_cons, List.any_cons]

theorem Passes.length_outs {words : List Word} {stages stages' : List Machine}
    {outs : List (List Word)} (h : Passes words stages outs stages') :
    outs.length = stages.length := by
  induction h with
  | nil words => rfl
  | cons _ _ _ ih => rw [List.length_cons, List.length_cons, ih]

theorem Passes.length_stages {words : List Word} {stages stages' : List Machine}
    {outs : List (List Word)} (h : Passes words stages outs stages') :
    stages'.length = stages.length := by
  induction h with
  | nil words => rfl
  | cons _ _ _ ih => rw [List.length_cons, List.length_cons, ih]

theorem Passes.stages_ne_nil {words : List Word} {stages stages' : List Machine}
    {outs : List (List Word)} (h : Passes words stages outs stages') (hstages : stages ≠ []) :
    stages' ≠ [] := by
  cases h with
  | nil => exact absurd rfl hstages
  | cons => exact List.cons_ne_nil _ _

theorem Passes.getLast?_outs {words : List Word} {stages stages' : List Machine}
    {outs : List (List Word)} (h : Passes words stages outs stages') (hstages : stages ≠ []) :
    outs.getLast? = some (outs.getLastD words) := by
  cases h with
  | nil => exact absurd rfl hstages
  | cons => rw [List.getLast?_cons, List.getLastD_cons, List.getLastD_eq_getLast?]

/-! ## A drive -/

/-- The words that the last stage puts out while passes are made. -/
def emittedFrom (fuel : Nat) : Nat → List Word → Pipeline → List Word
  | 0, _, _ => []
  | rounds + 1, words, p =>
    match pass fuel words p.stages with
    | some (.ok carry, stages) =>
      let p := { p with stages }
      carry.words ++
        if p.feedback && !p.isFinished && carry.moved then emittedFrom fuel rounds carry.words p
        else []
    | none | some (.error _, _) => []

/-- The words that the last stage puts out while a signal is driven through the pipeline. -/
def emitted (fuel : Nat) (signal : Word) (p : Pipeline) : List Word :=
  if p.stages.isEmpty then [] else emittedFrom fuel fuel [signal] p

/-- Whether another pass is due after one in which the stages put out `outs` and that left `p`. -/
def goesOn (p : Pipeline) (outs : List (List Word)) : Bool :=
  p.feedback && !p.isFinished && outs.any fun out => !out.isEmpty

/-- Passes through `p`, the first with `words`, go on until no other is due and meet no fault; the last
stage puts out `said`, and the pipeline is left as `q`. -/
inductive Drives : List Word → Pipeline → List Word → Pipeline → Prop
  | stop {words : List Word} {p : Pipeline} {outs : List (List Word)} {stages : List Machine} :
      Passes words p.stages outs stages → goesOn { p with stages } outs = false →
      Drives words p (outs.getLastD words) { p with stages }
  | goOn {words said : List Word} {p q : Pipeline} {outs : List (List Word)}
      {stages : List Machine} :
      Passes words p.stages outs stages → goesOn { p with stages } outs = true →
      Drives (outs.getLastD words) { p with stages } said q →
      Drives words p (outs.getLastD words ++ said) q

/-- A drive that meets no fault answers the last word that the last stage put out. -/
theorem drives_of_cycle {fuel rounds : Nat} {words : List Word} {last answer : Option Word}
    {p q : Pipeline} (h : cycle fuel rounds words last p = some (.ok answer, q)) :
    Drives words p (emittedFrom fuel rounds words p) q ∧
      answer = (emittedFrom fuel rounds words p).getLast?.or last := by
  induction rounds generalizing words last p with
  | zero => cases h
  | succ rounds ih =>
    rw [cycle] at h
    rw [emittedFrom]
    split at h
    · cases h
    · cases h
    · next carry stages hpass =>
      obtain ⟨outs, hpasses, rfl⟩ := passes_of_pass hpass
      simp only [hpass]
      dsimp only at h
      split at h
      · next hgoesOn =>
        obtain ⟨hdrives, rfl⟩ := ih h
        rw [if_pos hgoesOn, List.getLast?_append, Option.or_assoc]
        exact ⟨.goOn hpasses hgoesOn hdrives, rfl⟩
      · next hstops =>
        cases h
        rw [if_neg hstops, List.append_nil]
        exact ⟨.stop hpasses (Bool.eq_false_iff.mpr hstops), rfl⟩

theorem drives_of_run {fuel : Nat} {signal : Word} {answer : Option Word} {p q : Pipeline}
    (hstages : p.stages ≠ []) (h : p.run fuel signal = some (.ok answer, q)) :
    Drives [signal] p (p.emitted fuel signal) q ∧ answer = (p.emitted fuel signal).getLast? := by
  have hempty : ¬ p.stages.isEmpty = true := fun h => hstages (List.isEmpty_iff.mp h)
  rw [run, if_neg hempty] at h
  rw [emitted, if_neg hempty]
  obtain ⟨hdrives, rfl⟩ := drives_of_cycle h
  exact ⟨hdrives, Option.or_none⟩

end Intcode.Pipeline
