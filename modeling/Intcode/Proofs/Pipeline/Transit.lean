import Intcode.Proofs.Pipeline.Pass

/-!
# Words in transit

While a signal is driven through a pipeline, each stage is given words and drained once per pass. Its
*diary* lists these exchanges. The diaries of all stages tell where every word goes: what a stage puts
out in a pass is given to the next stage in the same pass, and with feedback what the last stage puts
out is given to the first stage in the next pass.

## Shape of the proof

A pass is one exchange of every stage (`Passes.exchange`). By induction on the passes of a drive these
make up the diaries (`Drives.exists_diary`). Another pass is due after one of them exactly if the
pipeline has feedback, its last stage has not halted and some stage has put out a word (`IsDue`); so the
words that the last pass leaves in transit are either those of a halted stage or none at all.
-/

namespace Intcode

/-- A machine that settles without a fault has halted, or waits with nothing left in its queue. -/
theorem Machine.Settles.status_cases {m n : Machine} {out : List Word} (h : m.Settles out n)
    (hfault : n.fault? = none) :
    n.status = .halted ∨ n.status = .awaitingInput ∧ n.queue = [] := by
  obtain ⟨-, -, -, hrest, -⟩ := id h
  rcases status_of_isAtRest hrest with hs | hs | ⟨fault, hs⟩
  · rcases h.isOver_or_starves with hover | hstarves
    · rw [isOver, hs] at hover
      cases hover
    · exact Or.inr ⟨hs, hstarves.queue_eq_nil⟩
  · exact Or.inl hs
  · rw [fault?, hs] at hfault
    cases hfault

namespace Pipeline

open Machine

/-! ## Diaries -/

/-- A stage was given some words and drained. -/
structure Exchange where
  fed : List Word
  said : List Word
  /-- The stage afterwards. -/
  left : Machine

/-- The stage makes these exchanges, one after the other, and never faults. -/
inductive Makes : Machine → List Exchange → Prop
  | nil (stage : Machine) : Makes stage []
  | cons {stage : Machine} {e : Exchange} {later : List Exchange} {fuel : Nat} :
      (stage.extend e.fed).drain fuel = some (e.said, e.left) → e.left.fault? = none →
      Makes e.left later → Makes stage (e :: later)

/-- What an exchange has left has halted or has read all its words. -/
theorem Makes.status_of_mem {stage : Machine} {diary : List Exchange} (h : Makes stage diary) :
    ∀ e ∈ diary, e.left.status = .halted ∨ e.left.status = .awaitingInput ∧ e.left.queue = [] := by
  induction h with
  | nil stage => exact fun _ hmem => absurd hmem List.not_mem_nil
  | cons hdrain hfault _ ih =>
    intro e hmem
    rcases List.mem_cons.mp hmem with rfl | hmem
    · exact (exists_drain_iff.mp ⟨_, hdrain⟩).status_cases hfault
    · exact ih e hmem

/-- Another pass is due after pass `j` of a pipeline with these `n` diaries: it has feedback, its last
stage has not halted, and some stage has put out a word. -/
def IsDue (feedback : Bool) (n : Nat) (diary : Nat → List Exchange) (j : Nat) : Prop :=
  feedback = true ∧
  (∃ e, (diary (n - 1))[j]? = some e ∧ e.left.status ≠ .halted) ∧
  ∃ k, k < n ∧ ∃ e, (diary k)[j]? = some e ∧ e.said ≠ []

/-- The diaries of the stages of `p`, from the words given to the first stage up to `q`, which is left
when after the first pass there were `more` others. -/
structure IsDiary (p : Pipeline) (words : List Word) (q : Pipeline) (more : Nat)
    (diary : Nat → List Exchange) : Prop where
  length_stages : q.stages.length = p.stages.length
  /-- One exchange per pass. -/
  length_eq : ∀ k, k < p.stages.length → (diary k).length = more + 1
  makes : ∀ k stage, p.stages[k]? = some stage → Makes stage (diary k)
  left_eq : ∀ k, k < p.stages.length → (diary k).getLast?.map Exchange.left = q.stages[k]?
  /-- Every word goes to the next stage within the pass. -/
  hands_on : ∀ k, k + 1 < p.stages.length →
    (diary (k + 1)).map Exchange.fed = (diary k).map Exchange.said
  /-- The words of the last stage go to the first one in the next pass. -/
  feeds_back : (diary 0).map Exchange.fed =
    words :: ((diary (p.stages.length - 1)).map Exchange.said).dropLast
  /-- There is another pass exactly if it is due. -/
  isDue_iff : ∀ j, j ≤ more → (IsDue p.feedback p.stages.length diary j ↔ j < more)

/-! ## One pass -/

section Pass

variable {words : List Word} {stages stages' : List Machine} {outs : List (List Word)}

/-- What stage `k` is given and puts out in a pass with `words` in which the stages put out `outs`. -/
def exchange (words : List Word) (outs : List (List Word)) (stages' : List Machine) (m : Machine)
    (k : Nat) : Exchange where
  fed := (words :: outs).getD k []
  said := outs.getD k []
  left := stages'.getD k m

theorem said_exchange {m : Machine} {k : Nat} {out : List Word} (h : outs[k]? = some out) :
    (exchange words outs stages' m k).said = out := by
  simp only [exchange, List.getD_eq_getElem?_getD, h, Option.getD_some]

/-- In a pass every stage makes its exchange. -/
theorem Passes.makes_exchange (h : Passes words stages outs stages') (m : Machine) {k : Nat}
    {stage : Machine} (hstage : stages[k]? = some stage) {later : List Exchange}
    (hlater : Makes (exchange words outs stages' m k).left later) :
    Makes stage (exchange words outs stages' m k :: later) := by
  induction h generalizing k with
  | nil words => cases hstage
  | @cons words out first first' rest rest' outs hsettles hfault _ ih =>
    cases k with
    | zero =>
      obtain rfl : first = stage := Option.some.inj hstage
      obtain ⟨fuel, hdrain⟩ := exists_drain_iff.mpr hsettles
      exact .cons hdrain hfault hlater
    | succ k => exact ih hstage hlater

theorem Passes.left_exchange (h : Passes words stages outs stages') (m : Machine) {k : Nat}
    (hk : k < stages.length) : some (exchange words outs stages' m k).left = stages'[k]? := by
  rw [← h.length_stages] at hk
  simp only [exchange, List.getD_eq_getElem?_getD, List.getElem?_eq_getElem hk, Option.getD_some]

/-- Some stage has put out a word. -/
theorem Passes.any_outs_iff (h : Passes words stages outs stages') (m : Machine) :
    (outs.any fun out => !out.isEmpty) = true ↔
      ∃ k, k < stages.length ∧ (exchange words outs stages' m k).said ≠ [] := by
  rw [List.any_eq_true]
  constructor
  · rintro ⟨out, hmem, hout⟩
    obtain ⟨k, hk, rfl⟩ := List.mem_iff_getElem.mp hmem
    refine ⟨k, h.length_outs ▸ hk, ?_⟩
    rw [said_exchange (List.getElem?_eq_getElem hk)]
    simpa using hout
  · rintro ⟨k, hk, hsaid⟩
    rw [← h.length_outs] at hk
    rw [said_exchange (List.getElem?_eq_getElem hk)] at hsaid
    exact ⟨outs[k], List.getElem_mem hk, by simpa using hsaid⟩

/-- The words of the last stage. -/
theorem Passes.said_exchange_last (h : Passes words stages outs stages') (m : Machine)
    (hstages : stages ≠ []) :
    (exchange words outs stages' m (stages.length - 1)).said = outs.getLastD words := by
  apply said_exchange
  rw [← h.length_outs, ← List.getLast?_eq_getElem?, h.getLast?_outs hstages]

/-- The drive goes on after its first pass exactly if the diaries say that another one is due. -/
theorem Passes.isDue_zero_iff {p : Pipeline} (h : Passes words p.stages outs stages')
    (hstages : p.stages ≠ []) (m : Machine) (later : Nat → List Exchange) :
    IsDue p.feedback p.stages.length (fun k => exchange words outs stages' m k :: later k) 0 ↔
      goesOn { p with stages := stages' } outs = true := by
  have hpos := List.length_pos_iff.mpr hstages
  have hleft := h.left_exchange m (Nat.sub_one_lt_of_lt hpos)
  have hlast : stages'.getLast? = some (exchange words outs stages' m (p.stages.length - 1)).left := by
    rw [hleft, List.getLast?_eq_getElem?, h.length_stages]
  rw [goesOn, isFinished, hlast, Bool.and_eq_true, Bool.and_eq_true, h.any_outs_iff m, IsDue,
    and_assoc]
  simp

end Pass

/-! ## Drives -/

theorem isDue_succ_iff {feedback : Bool} {n j : Nat} {first : Nat → Exchange}
    {later : Nat → List Exchange} :
    IsDue feedback n (fun k => first k :: later k) (j + 1) ↔ IsDue feedback n later j :=
  Iff.rfl

/-- The diaries of a drive of one pass. -/
theorem Passes.isDiary {words : List Word} {p : Pipeline} {outs : List (List Word)}
    {stages : List Machine} (h : Passes words p.stages outs stages) (hstages : p.stages ≠ [])
    (hstops : goesOn { p with stages } outs = false) (m : Machine) :
    IsDiary p words { p with stages } 0 fun k => [exchange words outs stages m k] where
  length_stages := h.length_stages
  length_eq _ _ := rfl
  makes _ _ hstage := h.makes_exchange m hstage (.nil _)
  left_eq _ hk := h.left_exchange m hk
  hands_on _ _ := rfl
  feeds_back := rfl
  isDue_iff j hj := by
    obtain rfl := Nat.le_zero.mp hj
    rw [h.isDue_zero_iff hstages m fun _ => [], hstops]
    simp

/-- The diaries of a drive, from those of its first pass and of the others. -/
theorem Passes.isDiary_cons {words : List Word} {p q : Pipeline} {outs : List (List Word)}
    {stages : List Machine} {more : Nat} {diary : Nat → List Exchange}
    (h : Passes words p.stages outs stages) (hstages : p.stages ≠ [])
    (hgoesOn : goesOn { p with stages } outs = true) (m : Machine)
    (hdiary : IsDiary { p with stages } (outs.getLastD words) q more diary) :
    IsDiary p words q (more + 1) fun k => exchange words outs stages m k :: diary k where
  length_stages := hdiary.length_stages.trans h.length_stages
  length_eq k hk := congrArg (· + 1) (hdiary.length_eq k (h.length_stages ▸ hk))
  makes k stage hstage := by
    obtain ⟨hk, -⟩ := List.getElem?_eq_some_iff.mp hstage
    exact h.makes_exchange m hstage (hdiary.makes k _ (h.left_exchange m hk).symm)
  left_eq k hk := by
    have hk' : k < stages.length := h.length_stages ▸ hk
    have hne : diary k ≠ [] := List.ne_nil_of_length_eq_add_one (hdiary.length_eq k hk')
    rw [← hdiary.left_eq k hk', List.getLast?_cons_of_ne_nil hne]
  hands_on k hk := by
    rw [List.map_cons, List.map_cons, hdiary.hands_on k (h.length_stages ▸ hk)]
    rfl
  feeds_back := by
    have hback := hdiary.feeds_back
    have hpos : p.stages.length - 1 < stages.length := by
      rw [h.length_stages]
      exact Nat.sub_one_lt_of_lt (List.length_pos_iff.mpr hstages)
    have hne : (diary (p.stages.length - 1)).map Exchange.said ≠ [] := by
      apply List.ne_nil_of_length_eq_add_one (n := more)
      rw [List.length_map, hdiary.length_eq _ hpos]
    simp only [h.length_stages] at hback
    rw [List.map_cons, List.map_cons, List.dropLast_cons_of_ne_nil hne, hback,
      h.said_exchange_last m hstages]
    rfl
  isDue_iff j hj := by
    cases j with
    | zero => simp [h.isDue_zero_iff hstages m diary, hgoesOn]
    | succ j =>
      have hiff := hdiary.isDue_iff j (Nat.le_of_succ_le_succ hj)
      simp only [h.length_stages] at hiff
      rw [isDue_succ_iff, hiff, Nat.add_lt_add_iff_right]

/-- A drive that meets no fault has diaries; the last stage puts out what its diary says. -/
theorem Drives.exists_diary {words said : List Word} {p q : Pipeline} (h : Drives words p said q)
    (hstages : p.stages ≠ []) (m : Machine) :
    ∃ more diary, IsDiary p words q more diary ∧
      said = (diary (p.stages.length - 1)).flatMap Exchange.said := by
  induction h with
  | stop hpasses hstops =>
    refine ⟨0, _, hpasses.isDiary hstages hstops m, ?_⟩
    rw [List.flatMap_singleton, hpasses.said_exchange_last m hstages]
  | goOn hpasses hgoesOn _ ih =>
    obtain ⟨more, diary, hdiary, rfl⟩ := ih (hpasses.stages_ne_nil hstages)
    refine ⟨more + 1, _, hpasses.isDiary_cons hstages hgoesOn m hdiary, ?_⟩
    rw [List.flatMap_cons, hpasses.said_exchange_last m hstages]
    simp only [hpasses.length_stages]

section Ends

variable {p q : Pipeline} {words : List Word} {more : Nat} {diary : Nat → List Exchange}

/-- The last exchange of a stage in its diary has left the stage as it is in the end. -/
theorem IsDiary.getLast? (h : IsDiary p words q more diary) {k : Nat} {stage : Machine}
    (hstage : q.stages[k]? = some stage) : ∃ e, (diary k).getLast? = some e ∧ e.left = stage := by
  obtain ⟨hk, -⟩ := List.getElem?_eq_some_iff.mp hstage
  rw [← h.left_eq k (h.length_stages ▸ hk)] at hstage
  exact Option.map_eq_some_iff.mp hstage

/-- All stages have halted or have read all their words. -/
theorem IsDiary.status_of_mem (h : IsDiary p words q more diary) :
    ∀ stage ∈ q.stages,
      stage.status = .halted ∨ stage.status = .awaitingInput ∧ stage.queue = [] := by
  intro stage hmem
  obtain ⟨k, hk⟩ := List.mem_iff_getElem?.mp hmem
  obtain ⟨hlt, -⟩ := List.getElem?_eq_some_iff.mp hk
  obtain ⟨e, he, rfl⟩ := h.getLast? hk
  have hmakes := h.makes k _ (List.getElem?_eq_getElem (h.length_stages ▸ hlt))
  exact hmakes.status_of_mem e (List.mem_of_getLast? he)

/-- If there is feedback and the last stage has not halted, then no stage has put out a word in the
last pass. -/
theorem IsDiary.said_last_eq_nil (h : IsDiary p words q more diary) (hfeedback : p.feedback = true)
    {last : Machine} (hlast : q.stages.getLast? = some last) (hhalted : last.status ≠ .halted) :
    ∀ k, k < p.stages.length → ∀ e, (diary k).getLast? = some e → e.said = [] := by
  intro k hk e he
  by_contra hsaid
  have hdiary (k : Nat) (hk : k < p.stages.length) : (diary k)[more]? = (diary k).getLast? := by
    rw [List.getLast?_eq_getElem?, h.length_eq k hk, Nat.add_sub_cancel]
  rw [List.getLast?_eq_getElem?, h.length_stages] at hlast
  obtain ⟨e', he', rfl⟩ := h.getLast? hlast
  have hdue : IsDue p.feedback p.stages.length diary more :=
    ⟨hfeedback, ⟨e', (hdiary _ (Nat.sub_one_lt_of_lt hk)).trans he', hhalted⟩,
      k, hk, e, (hdiary k hk).trans he, hsaid⟩
  exact Nat.lt_irrefl more ((h.isDue_iff more (Nat.le_refl more)).mp hdue)

end Ends

/-- **A drive loses no word in transit.** If a pipeline with at least one stage answers a signal, then
afterwards every stage has halted or waits with an empty queue. The stages have kept diaries of what
they were given and put out, in which every word goes to the next stage, and what the last one puts out
to the first, behind the signal, but for the words of the last pass; passes are made as long as they are
due, and no longer. If there is feedback and the last stage has not halted, then no stage has put out a
word in the last pass. The answer is the last word that the last stage has put out in any pass. -/
theorem drive_loses_no_word {p q : Pipeline} {fuel : Nat} {signal : Word} {answer : Option Word}
    (hstages : p.stages ≠ []) (hrun : p.run fuel signal = some (.ok answer, q)) :
    (∀ stage ∈ q.stages,
      stage.status = .halted ∨ stage.status = .awaitingInput ∧ stage.queue = []) ∧
    ∃ more diary, IsDiary p [signal] q more diary ∧
      (∀ last, p.feedback = true → q.stages.getLast? = some last → last.status ≠ .halted →
        ∀ k, k < p.stages.length → ∀ e, (diary k).getLast? = some e → e.said = []) ∧
      answer = ((diary (p.stages.length - 1)).flatMap Exchange.said).getLast? := by
  obtain ⟨hdrives, hanswer⟩ := drives_of_run hstages hrun
  obtain ⟨more, diary, hdiary, hsaid⟩ := hdrives.exists_diary hstages (p.stages.head hstages)
  refine ⟨hdiary.status_of_mem, more, diary, hdiary, ?_, hsaid ▸ hanswer⟩
  exact fun last hfeedback hlast hhalted => hdiary.said_last_eq_nil hfeedback hlast hhalted

/-- Two stages that answer a word with a 7 and then want two more. The first one gets only one of them,
so nothing moves in the second pass. -/
theorem drive_loses_no_word_starved_ring :
    let p := ofProgram ⟨[3, 0, 3, 0, 104, 7, 3, 0, 3, 0, 99]⟩ [5, 6] {} true
    p.stages ≠ [] ∧
      ∃ q, p.run 9 0 = some (.ok (some 7), q) ∧
        (∀ stage ∈ q.stages,
          stage.status = .halted ∨ stage.status = .awaitingInput ∧ stage.queue = []) ∧
        ∃ more diary, IsDiary p [0] q more diary ∧
          (∀ k, k < 2 → ∀ e, (diary k).getLast? = some e → e.said = []) ∧
          some 7 = ((diary 1).flatMap Exchange.said).getLast? := by
  intro p
  have hstages : p.stages ≠ [] := List.cons_ne_nil _ _
  have hresult : (p.run 9 0).map (fun r => (r.1, r.2.stages.getLast?.map status)) =
      some (.ok (some 7), some .awaitingInput) := by decide +kernel
  obtain ⟨⟨answer, q⟩, hrun, hq⟩ := Option.map_eq_some_iff.mp hresult
  obtain ⟨rfl, hwaiting⟩ := Prod.mk.inj hq
  obtain ⟨last, hlast, hstatus⟩ := Option.map_eq_some_iff.mp hwaiting
  obtain ⟨hsettled, more, diary, hdiary, hsilent, hanswer⟩ := drive_loses_no_word hstages hrun
  have hhalted : last.status ≠ .halted := by rw [hstatus]; exact nofun
  exact ⟨hstages, q, hrun, hsettled, more, diary, hdiary, hsilent last rfl hlast hhalted, hanswer⟩

end Pipeline

end Intcode
