import Mathlib.Data.List.Infix
import Mathlib.Logic.Function.Basic
import Intcode.Proofs.Machine.Streams

/-!
# Machines in a ring

With feedback the stages of a pipeline form a ring: what a stage puts out is supplied to the next one,
and what the last one puts out to the first, behind the signal. Words need not be delivered at once, and
a stage may be driven at any time and by any calls (`Reaches`). What the stages put out is nevertheless
the same whatever the order, as far as it goes.

## Shape of the proof

A stage puts out a beginning of what it would with more words. Going through one execution, each stage
has been fed a beginning of what it is supplied with, hence agrees, as far as it goes, with what it is
fed in another execution; so does what it puts out (`Reaches.isPrefix_or_isPrefix`). If the other
execution has left no stage with anything to do and has delivered every word, then no stage can get
ahead of it (`Reaches.isPrefix_of_exhausted`). A stage whose execution is over has put out all that it
ever will, even if it was left with words that nobody read (`Reaches.isPrefix_of_isOver`). Two executions
that end in either of these ways have hence put out the same (`Reaches.said_last_eq`).
-/

namespace Intcode.Pipeline

open Machine

/-- What the stages of a ring of `n` are supplied with when they have put out `said`: the first one
with the signal and what the last one put out, any other with what the one before it put out. -/
def supply (n : Nat) (signal : Word) (said : Nat → List Word) : Nat → List Word
  | 0 => signal :: said (n - 1)
  | i + 1 => said i

/-- Place `i` in a ring of `n`; behind the last place comes the first. -/
def place (n i : Nat) : Nat :=
  if i < n then i else 0

/-- The ring that had the stages `start` comes to have `stages`, after each has been fed `fed` and has
put out `said`: time and again some stage was driven, and fed words that it was supplied with. -/
inductive Reaches (start : List Machine) (signal : Word) :
    List Machine → (Nat → List Word) → (Nat → List Word) → Prop
  | start : Reaches start signal start (fun _ => []) fun _ => []
  | drive {stages : List Machine} {fed said : Nat → List Word} {i : Nat} {stage stage' : Machine}
      {calls : List Call} {out : List Word} :
      Reaches start signal stages fed said → stages[i]? = some stage →
      Returns calls stage out stage' →
      fed i ++ calls.flatMap Call.words <+: supply start.length signal said i →
      Reaches start signal (stages.set i stage')
        (Function.update fed i (fed i ++ calls.flatMap Call.words))
        (Function.update said i (said i ++ out))

/-- The last stage's execution is over; or no stage can go on, and every word was delivered to the
stages that would read it. -/
def Finished (n : Nat) (signal : Word) (stages : List Machine) (fed said : Nat → List Word) : Prop :=
  (∃ stage, stages[n - 1]? = some stage ∧ stage.isOver = true) ∨
    ∀ i stage, stages[i]? = some stage →
      stage.isOver = true ∨ stage.Starves ∧ fed i = supply n signal said i

/-! ## Supplies -/

section Supply

variable {n : Nat} {signal : Word} {said said' : Nat → List Word}

/-- Who puts out more is supplied with more. -/
theorem supply_isPrefix (h : ∀ i, said i <+: said' i) (i : Nat) :
    supply n signal said i <+: supply n signal said' i := by
  cases i with
  | zero => exact (List.prefix_cons_inj signal).mpr (h (n - 1))
  | succ i => exact h i

theorem supply_isPrefix_or_isPrefix (h : ∀ i, said i <+: said' i ∨ said' i <+: said i) (i : Nat) :
    supply n signal said i <+: supply n signal said' i ∨
      supply n signal said' i <+: supply n signal said i := by
  cases i with
  | zero =>
    exact (h (n - 1)).imp (List.prefix_cons_inj signal).mpr (List.prefix_cons_inj signal).mpr
  | succ i => exact h i

/-- Beginnings of words that agree as far as they go agree as far as they go. -/
theorem isPrefix_or_isPrefix_of_isPrefix {xs ys as bs : List Word} (hx : xs <+: as) (hy : ys <+: bs)
    (h : as <+: bs ∨ bs <+: as) : xs <+: ys ∨ ys <+: xs := by
  rcases h with h | h
  · exact List.prefix_or_prefix_of_prefix (hx.trans h) hy
  · exact List.prefix_or_prefix_of_prefix hx (hy.trans h)

theorem place_lt {k : Nat} (h : k < n) (i : Nat) : place n i < n := by
  rw [place]
  split
  · assumption
  · exact Nat.zero_lt_of_lt h

/-- What a stage puts out is supplied to the next one. -/
theorem supply_place_succ {k : Nat} (h : k < n) (out : List Word) :
    supply n signal (Function.update said k (said k ++ out)) (place n (k + 1)) =
      supply n signal said (place n (k + 1)) ++ out := by
  rw [place]
  split
  · rw [supply, supply, Function.update_self]
  · obtain rfl : k = n - 1 := by omega
    rw [supply, supply, Function.update_self, List.cons_append]

/-- What a stage puts out is supplied to no other one. -/
theorem supply_of_ne_place_succ {k i : Nat} (h : i < n) (hne : i ≠ place n (k + 1)) (words : List Word) :
    supply n signal (Function.update said k words) i = supply n signal said i := by
  rw [place] at hne
  cases i with
  | zero =>
    have hlast : n - 1 ≠ k := by
      intro hk
      rw [if_neg (by omega)] at hne
      exact hne rfl
    rw [supply, supply, Function.update_of_ne hlast]
  | succ i =>
    have hbefore : i ≠ k := by
      intro hk
      rw [if_pos (by omega)] at hne
      omega
    rw [supply, supply, Function.update_of_ne hbefore]

theorem isPrefix_update (said : Nat → List Word) (k : Nat) (out : List Word) (i : Nat) :
    said i <+: Function.update said k (said k ++ out) i := by
  by_cases hi : i = k
  · subst hi
    rw [Function.update_self]
    exact List.prefix_append _ _
  · rw [Function.update_of_ne hi]

end Supply

/-! ## Executions -/

theorem getElem?_set_of_eq_some {stages : List Machine} {i : Nat} {stage : Machine}
    (h : stages[i]? = some stage) (stage' : Machine) : (stages.set i stage')[i]? = some stage' := by
  rw [List.getElem?_set_self', h]
  rfl

section Executions

variable {start stages stages' : List Machine} {signal : Word} {fed fed' said said' : Nat → List Word}

theorem Reaches.length_stages (h : Reaches start signal stages fed said) :
    stages.length = start.length := by
  induction h with
  | start => rfl
  | drive _ _ _ _ ih => rw [List.length_set, ih]

/-- What happened to a stage. -/
theorem Reaches.returns (h : Reaches start signal stages fed said) {i : Nat} {stage : Machine}
    (hstage : stages[i]? = some stage) :
    ∃ m calls, start[i]? = some m ∧ Returns calls m (said i) stage ∧
      calls.flatMap Call.words = fed i := by
  induction h generalizing stage with
  | start => exact ⟨stage, [], hstage, .nil stage, rfl⟩
  | @drive stages fed said k before after calls out _ hbefore hreturns _ ih =>
    by_cases hi : i = k
    · subst hi
      obtain ⟨m, earlier, hm, hearlier, hfed⟩ := ih hbefore
      rw [getElem?_set_of_eq_some hbefore] at hstage
      cases hstage
      refine ⟨m, earlier ++ calls, hm, ?_, ?_⟩
      · rw [Function.update_self]
        exact returns_append_iff.mpr ⟨_, _, _, rfl, hearlier, hreturns⟩
      · rw [Function.update_self, List.flatMap_append, hfed]
    · rw [List.getElem?_set_ne (Ne.symm hi)] at hstage
      rw [Function.update_of_ne hi, Function.update_of_ne hi]
      exact ih hstage

/-- No stage is fed what it is not supplied with. -/
theorem Reaches.fed_isPrefix (h : Reaches start signal stages fed said) (i : Nat) :
    fed i <+: supply start.length signal said i := by
  induction h with
  | start => exact List.nil_prefix
  | @drive stages fed said k before after calls out _ _ _ hfed ih =>
    refine List.IsPrefix.trans ?_ (supply_isPrefix (isPrefix_update said k out) i)
    by_cases hi : i = k
    · subst hi
      rwa [Function.update_self]
    · rwa [Function.update_of_ne hi]

/-- In two executions a stage was driven by calls on one machine. -/
theorem Reaches.twins (h : Reaches start signal stages fed said)
    (h' : Reaches start signal stages' fed' said') {i : Nat} {stage : Machine}
    (hstage : stages[i]? = some stage) :
    ∃ stage' m calls calls', stages'[i]? = some stage' ∧
      Returns calls m (said i) stage ∧ calls.flatMap Call.words = fed i ∧
      Returns calls' m (said' i) stage' ∧ calls'.flatMap Call.words = fed' i := by
  obtain ⟨m, calls, hm, hreturns, hwords⟩ := h.returns hstage
  have hlength := h.length_stages.trans h'.length_stages.symm
  obtain ⟨hi, -⟩ := List.getElem?_eq_some_iff.mp hstage
  obtain ⟨stage', hstage'⟩ : ∃ stage', stages'[i]? = some stage' :=
    ⟨_, List.getElem?_eq_getElem (hlength ▸ hi)⟩
  obtain ⟨m', calls', hm', hreturns', hwords'⟩ := h'.returns hstage'
  obtain rfl : m = m' := Option.some.inj (hm.symm.trans hm')
  exact ⟨stage', m, calls, calls', hstage', hreturns, hwords, hreturns', hwords'⟩

/-- In two executions a stage has put out the same words, as far as they go. -/
theorem Reaches.isPrefix_or_isPrefix (h : Reaches start signal stages fed said)
    (h' : Reaches start signal stages' fed' said') (i : Nat) :
    said i <+: said' i ∨ said' i <+: said i := by
  -- on the first execution; of the second only its end counts
  induction h generalizing i with
  | start => exact Or.inl List.nil_prefix
  | @drive stages fed said k before after calls out hreaches hbefore hreturns hfed ih =>
    by_cases hi : i = k
    · subst hi
      have hdriven := Reaches.drive hreaches hbefore hreturns hfed
      obtain ⟨_, _, _, _, -, hmine, hwords, hother, hwords'⟩ :=
        hdriven.twins h' (getElem?_set_of_eq_some hbefore after)
      apply hmine.isPrefix_or_isPrefix hother
      rw [hwords, hwords', Function.update_self]
      exact isPrefix_or_isPrefix_of_isPrefix hfed (h'.fed_isPrefix i)
        (supply_isPrefix_or_isPrefix ih i)
    · rw [Function.update_of_ne hi]
      exact ih i

/-- No stage puts out more than in an execution that left nothing to do and no word undelivered. -/
theorem Reaches.isPrefix_of_exhausted (h : Reaches start signal stages fed said)
    (h' : Reaches start signal stages' fed' said')
    (hexhausted : ∀ i stage, stages'[i]? = some stage →
      stage.isOver = true ∨ stage.Starves ∧ fed' i = supply start.length signal said' i) (i : Nat) :
    said i <+: said' i := by
  induction h generalizing i with
  | start => exact List.nil_prefix
  | @drive stages fed said k before after calls out hreaches hbefore hreturns hfed ih =>
    by_cases hi : i = k
    · subst hi
      have hdriven := Reaches.drive hreaches hbefore hreturns hfed
      obtain ⟨stage', _, _, _, hstage', hmine, hwords, hother, hwords'⟩ :=
        hdriven.twins h' (getElem?_set_of_eq_some hbefore after)
      -- the stage was fed no more than the other execution supplies it with
      have hsupplied := hfed.trans (supply_isPrefix ih i)
      rw [Function.update_self] at hwords
      rcases hexhausted i stage' hstage' with hover | ⟨hstarves, hall⟩
      · -- there it may have left words unread, so it need not have been fed more
        apply hmine.isPrefix_of_isOver hother hover
        rw [hwords, hwords']
        exact List.prefix_or_prefix_of_prefix hsupplied (h'.fed_isPrefix i)
      · apply hmine.isPrefix_of_settles hother (settles_of_starves hstarves)
        rwa [hwords, hwords', hall]
    · rw [Function.update_of_ne hi]
      exact ih i

/-- No stage puts out more than in an execution in which its own came to an end. -/
theorem Reaches.isPrefix_of_isOver (h : Reaches start signal stages fed said)
    (h' : Reaches start signal stages' fed' said') {i : Nat} {stage' : Machine}
    (hstage' : stages'[i]? = some stage') (hover : stage'.isOver = true) : said i <+: said' i := by
  obtain ⟨_, _, _, _, -, hother, hwords', hmine, hwords⟩ := h'.twins h hstage'
  apply hmine.isPrefix_of_isOver hother hover
  rw [hwords, hwords']
  exact isPrefix_or_isPrefix_of_isPrefix (h.fed_isPrefix i) (h'.fed_isPrefix i)
    (supply_isPrefix_or_isPrefix (h.isPrefix_or_isPrefix h') i)

/-- The last stage does not put out more than in a finished execution. -/
theorem Reaches.isPrefix_of_finished (h : Reaches start signal stages fed said)
    (h' : Reaches start signal stages' fed' said')
    (hfinished : Finished start.length signal stages' fed' said') :
    said (start.length - 1) <+: said' (start.length - 1) := by
  rcases hfinished with ⟨stage', hstage', hover⟩ | hexhausted
  · exact h.isPrefix_of_isOver h' hstage' hover
  · exact h.isPrefix_of_exhausted h' hexhausted _

/-- In finished executions the last stage has put out the same words. -/
theorem Reaches.said_last_eq (h : Reaches start signal stages fed said)
    (h' : Reaches start signal stages' fed' said')
    (hfinished : Finished start.length signal stages fed said)
    (hfinished' : Finished start.length signal stages' fed' said') :
    said (start.length - 1) = said' (start.length - 1) :=
  (h.isPrefix_of_finished h' hfinished').eq_of_length_le
    (h'.isPrefix_of_finished h hfinished).length_le

end Executions

/-! ## Words on their way -/

/-- All words were delivered but `words`, which wait for stage `k`. -/
def InTransit (n : Nat) (signal : Word) (k : Nat) (words : List Word)
    (fed said : Nat → List Word) : Prop :=
  ∀ i < n, fed i ++ (if i = k then words else []) = supply n signal said i

section Transit

variable {n k : Nat} {signal : Word} {words : List Word} {fed said : Nat → List Word}

/-- At the start the signal waits for the first stage. -/
theorem inTransit_start (n : Nat) (signal : Word) :
    InTransit n signal 0 [signal] (fun _ => []) fun _ => [] := by
  intro i _
  cases i with
  | zero => rfl
  | succ i => rfl

theorem InTransit.fed_append (h : InTransit n signal k words fed said) (hk : k < n) :
    fed k ++ words = supply n signal said k := by
  have hwaiting := h k hk
  rwa [if_pos rfl] at hwaiting

theorem InTransit.fed_eq (h : InTransit n signal k [] fed said) {i : Nat} (hi : i < n) :
    fed i = supply n signal said i := by
  have hdelivered := h i hi
  rwa [ite_self, List.append_nil] at hdelivered

/-- When no words wait, none wait for any stage. -/
theorem InTransit.of_nil (h : InTransit n signal k [] fed said) (j : Nat) :
    InTransit n signal j [] fed said := by
  intro i hi
  rw [ite_self, List.append_nil, h.fed_eq hi]

/-- The words are delivered. -/
theorem InTransit.deliver (h : InTransit n signal k words fed said) :
    InTransit n signal k [] (Function.update fed k (fed k ++ words)) said := by
  intro i hi
  rw [ite_self, List.append_nil, ← h i hi]
  by_cases hik : i = k
  · rw [hik, Function.update_self, if_pos rfl]
  · rw [Function.update_of_ne hik, if_neg hik, List.append_nil]

/-- What a stage puts out waits for the next one. -/
theorem InTransit.putOut (h : InTransit n signal k [] fed said) (hk : k < n) (out : List Word) :
    InTransit n signal (place n (k + 1)) out fed (Function.update said k (said k ++ out)) := by
  intro i hi
  split
  · next hnext =>
    rw [hnext, supply_place_succ hk, h.fed_eq (place_lt hk _)]
  · next hne => rw [supply_of_ne_place_succ hi hne, List.append_nil, h.fed_eq hi]

variable {start stages : List Machine} {stage : Machine}

/-- A stage executes an instruction; what it puts out waits for the next one. -/
theorem Reaches.step (h : Reaches start signal stages fed said)
    (htransit : InTransit start.length signal k [] fed said) (hstage : stages[k]? = some stage) :
    Reaches start signal (stages.set k stage.step) fed
        (Function.update said k (said k ++ stage.step.emission)) ∧
      InTransit start.length signal (place start.length (k + 1)) stage.step.emission fed
        (Function.update said k (said k ++ stage.step.emission)) := by
  obtain ⟨hk, -⟩ := List.getElem?_eq_some_iff.mp hstage
  have hdriven := h.drive hstage (.cons (.step stage) (.nil stage.step))
    (by simpa [Call.words] using h.fed_isPrefix k)
  refine ⟨?_, htransit.putOut (h.length_stages ▸ hk) _⟩
  simpa [Call.words] using hdriven

/-- A stage is fed the words that wait for it. -/
theorem Reaches.deliver (h : Reaches start signal stages fed said)
    (htransit : InTransit start.length signal k words fed said) (hstage : stages[k]? = some stage) :
    Reaches start signal (stages.set k (stage.extend words))
        (Function.update fed k (fed k ++ words)) said ∧
      InTransit start.length signal k [] (Function.update fed k (fed k ++ words)) said := by
  obtain ⟨hk, -⟩ := List.getElem?_eq_some_iff.mp hstage
  have hfed := htransit.fed_append (h.length_stages ▸ hk)
  have hdriven := h.drive hstage (.cons (.extend stage words) (.nil _))
    (by simp [Call.words, hfed])
  refine ⟨?_, htransit.deliver⟩
  simpa [Call.words] using hdriven

/-- A stage is drained with the words that wait for it; what it puts out waits for the next one. -/
theorem Reaches.drain {stage' : Machine} {out : List Word} (h : Reaches start signal stages fed said)
    (htransit : InTransit start.length signal k words fed said) (hstage : stages[k]? = some stage)
    (hsettles : (stage.extend words).Settles out stage') :
    Reaches start signal (stages.set k stage') (Function.update fed k (fed k ++ words))
        (Function.update said k (said k ++ out)) ∧
      InTransit start.length signal (place start.length (k + 1)) out
        (Function.update fed k (fed k ++ words)) (Function.update said k (said k ++ out)) := by
  obtain ⟨hk, -⟩ := List.getElem?_eq_some_iff.mp hstage
  have hlt := h.length_stages ▸ hk
  have hfed := htransit.fed_append hlt
  have hdriven := h.drive hstage (returns_extend_drain_iff.mpr hsettles)
    (by simp [Call.words, hfed])
  refine ⟨?_, htransit.deliver.putOut hlt out⟩
  simpa [Call.words] using hdriven

end Transit

end Intcode.Pipeline
