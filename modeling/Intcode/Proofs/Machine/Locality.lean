import Intcode.Proofs.Machine.Addresses

/-!
# The touched cells are a footprint

What a machine does depends on the cells that it touches, and on no others. Words that are written
elsewhere beforehand (`Machine.patched`) change nothing: the machine goes the same way, and at the end
the words are where they were written.

## Shape of the proof

Patching commutes with touching a cell, and with writing to a cell that is not patched. So it commutes
with resolving an instruction, which reads touched cells only (`Fetch.run_writeAll`), with an effect
(`commit_patched`) and with a step (`stepWith_patched`), as long as the step leaves the patched cells
untouched. A cell that is untouched in the end was so all along, which carries this over to whole
executions (`play_patched`).

What is written to a cell is not looked at before it is written, so a store that overflows leaves its
target untouched, and the target may be patched.
-/

namespace Intcode

namespace Memory

variable {m : Memory} {a b : Word} {writes : List (Word × Word)}

/-- Writes words to addresses, one after the other. -/
def writeAll (m : Memory) (writes : List (Word × Word)) : Memory :=
  writes.foldl (fun m (address, value) => m.write address value) m

/-- Whether none of the addresses of these writes is touched. -/
def Spares (m : Memory) (writes : List (Word × Word)) : Prop :=
  ∀ a ∈ writes.map Prod.fst, m.contains a = false

theorem Spares.not_mem (h : m.Spares writes) (ha : m.contains a = true) :
    a ∉ writes.map Prod.fst :=
  fun hmem => Bool.false_ne_true ((h a hmem).symm.trans ha)

/-- A memory spares what a later one spares. -/
theorem Spares.mono {n : Memory} (h : n.Spares writes)
    (hmono : ∀ a, m.contains a = true → n.contains a = true) : m.Spares writes :=
  fun a hmem => Bool.eq_false_iff.mpr fun ha => h.not_mem (hmono a ha) hmem

theorem get_writeAll (h : a ∉ writes.map Prod.fst) : (m.writeAll writes).get a = m.get a := by
  induction writes generalizing m with
  | nil => rfl
  | cons w writes ih =>
    rw [List.map_cons, List.mem_cons, not_or] at h
    rw [writeAll, List.foldl_cons, ← writeAll, ih h.2, get_write, if_neg (Ne.symm h.1)]

theorem contains_writeAll (m : Memory) (writes : List (Word × Word)) (a : Word) :
    (m.writeAll writes).contains a = (decide (a ∈ writes.map Prod.fst) || m.contains a) := by
  induction writes generalizing m with
  | nil => rfl
  | cons w writes ih =>
    rw [writeAll, List.foldl_cons, ← writeAll, ih, contains_write]
    simp only [List.map_cons, List.mem_cons, Bool.decide_or, eq_comm (a := a)]
    rw [Bool.or_left_comm, Bool.or_assoc]

/-- What a patched address holds does not depend on the memory that was patched. -/
theorem get_writeAll_congr (m n : Memory) (h : a ∈ writes.map Prod.fst) :
    (m.writeAll writes).get a = (n.writeAll writes).get a := by
  induction writes generalizing m n with
  | nil => exact absurd h List.not_mem_nil
  | cons w writes ih =>
    by_cases hlater : a ∈ writes.map Prod.fst
    · exact ih (m.write w.1 w.2) (n.write w.1 w.2) hlater
    · obtain rfl : a = w.1 := (List.mem_cons.mp h).resolve_right hlater
      simp only [writeAll, List.foldl_cons]
      rw [← writeAll, ← writeAll, get_writeAll hlater, get_writeAll hlater, get_write, get_write,
        if_pos rfl, if_pos rfl]

/-! ## Order of operations -/

theorem touch_write (m : Memory) (a v b : Word) :
    (m.write a v).touch b = (m.touch b).write a v := by
  refine ext_view (fun c => ?_) fun c => ?_
  · rw [get_touch, get_write, get_write, get_touch]
  · rw [contains_touch, contains_write, contains_write, contains_touch]
    exact Bool.or_left_comm _ _ _

theorem write_write {v w : Word} (h : a ≠ b) : (m.write a v).write b w = (m.write b w).write a v := by
  refine ext_view (fun c => ?_) fun c => ?_
  · simp only [get_write]
    split
    · next hb => rw [if_neg (hb ▸ h)]
    · rfl
  · rw [contains_write, contains_write, contains_write, contains_write]
    exact Bool.or_left_comm _ _ _

theorem touch_writeAll (m : Memory) (writes : List (Word × Word)) (b : Word) :
    (m.writeAll writes).touch b = (m.touch b).writeAll writes := by
  induction writes generalizing m with
  | nil => rfl
  | cons w writes ih =>
    rw [writeAll, List.foldl_cons, ← writeAll, ih, touch_write]
    rfl

theorem write_writeAll {v : Word} (h : b ∉ writes.map Prod.fst) :
    (m.writeAll writes).write b v = (m.write b v).writeAll writes := by
  induction writes generalizing m with
  | nil => rfl
  | cons w writes ih =>
    rw [List.map_cons, List.mem_cons, not_or] at h
    rw [writeAll, List.foldl_cons, ← writeAll, ih h.2, write_write (Ne.symm h.1)]
    rfl

end Memory

/-- Writes to cells that a computation does not read can be made before it or after it. -/
theorem Fetch.run_writeAll {α : Type} {writes : List (Word × Word)} (f : Fetch α) (m : Memory)
    (h : (f.run m).2.Spares writes) :
    f.run (m.writeAll writes) = ((f.run m).1, (f.run m).2.writeAll writes) := by
  induction f generalizing m with
  | done answer => rfl
  | fault cause => rfl
  | read address next ih =>
    have hread : address ∉ writes.map Prod.fst :=
      h.not_mem (by rw [contains_run, reads]; simp)
    rw [run, run, Memory.read, Memory.read, Memory.touch_writeAll, Memory.get_writeAll hread]
    exact ih (m.get address) (m.touch address) h

namespace Machine

variable {σ : Type} {ask : σ → Option Word × σ} {m : Machine} {s : σ}
  {writes : List (Word × Word)}

/-- The machine with words written to its memory from outside. -/
def patched (writes : List (Word × Word)) (m : Machine) : Machine :=
  { m with memory := m.memory.writeAll writes }

/-! ## A step -/

/-- Resolving an instruction that spares what is patched comes to the same. -/
theorem resolved_patched (h : m.fetched.memory.Spares writes) :
    (m.patched writes).resolved = m.resolved ∧
      (m.patched writes).fetched = m.fetched.patched writes := by
  have hrun := m.context.plan.run_writeAll m.memory h
  constructor
  · have hpatched : (m.patched writes).resolved =
        (m.context.plan.run (m.memory.writeAll writes)).1 := (Fetch.run_fst _ _).symm
    rw [hpatched, hrun]
    exact Fetch.run_fst _ _
  · exact congrArg (fun r => ({ m with memory := r.2 } : Machine)) hrun

theorem store_patched {target value : Word} {width : Nat}
    (h : (m.store target value width).memory.Spares writes) :
    (m.patched writes).store target value width = (m.store target value width).patched writes := by
  have hsame : (m.patched writes).config.width.fits value = m.config.width.fits value := rfl
  cases hfits : m.config.width.fits value with
  | false =>
    rw [store_of_not_fits hfits, store_of_not_fits (hsame.trans hfits)]
    rfl
  | true =>
    -- the target is touched by now, so it is not among the cells that are patched
    rw [store_of_fits hfits] at h ⊢
    have htarget : target ∉ writes.map Prod.fst := h.not_mem (by simp [advance])
    rw [store_of_fits (hsame.trans hfits)]
    exact congrArg (fun memory => ({ m with memory } : Machine).advance width)
      (Memory.write_writeAll htarget)

theorem rebase_patched (m : Machine) (base : Word) (width : Nat) :
    (m.patched writes).rebase base width = (m.rebase base width).patched writes := by
  rw [rebase, rebase]
  show (if m.config.width.fits base then _ else _) = _
  split <;> rfl

theorem nextInput_patched (ask : σ → Option Word × σ) (m : Machine) (s : σ) :
    (m.patched writes).nextInput ask s =
      ((m.nextInput ask s).1, (m.nextInput ask s).2.1.patched writes, (m.nextInput ask s).2.2) := by
  rw [nextInput, nextInput, show (m.patched writes).queue = m.queue from rfl]
  cases m.queue <;> rfl

/-- An effect that spares what is patched is carried out alike. -/
theorem commit_patched {width : Nat} {effect : Effect}
    (h : (m.commit ask s width effect).1.memory.Spares writes) :
    (m.patched writes).commit ask s width effect =
      Prod.map (patched writes) id (m.commit ask s width effect) := by
  cases effect with
  | store target value => exact Prod.ext (store_patched h) rfl
  | input target =>
    rw [commit] at h ⊢
    rw [nextInput_patched, commit]
    rcases hinput : m.nextInput ask s with ⟨_ | word, m', s'⟩
    · rfl
    · rw [hinput] at h
      exact Prod.ext (store_patched h) rfl
  | output value => rfl
  | jump destination => rfl
  | pass => rfl
  | rebase base => exact Prod.ext (rebase_patched m base width) rfl
  | halt => rfl

/-- A step that spares what is patched is taken alike. -/
theorem stepWith_patched (h : (m.stepWith ask s).1.memory.Spares writes) :
    (m.patched writes).stepWith ask s = Prod.map (patched writes) id (m.stepWith ask s) := by
  cases hover : m.isOver with
  | true =>
    rw [stepWith_of_isOver hover, stepWith_of_isOver (show (m.patched writes).isOver = true from hover)]
    rfl
  | false =>
    -- what resolving touches is still touched after the step, so it spares the patched cells as well
    have hfetched : m.fetched.memory.Spares writes :=
      h.mono fun a => contains_stepWith_of_fetched hover
    obtain ⟨hresolved, hmachine⟩ := resolved_patched hfetched
    rw [stepWith_eq hover] at h ⊢
    rw [stepWith_eq (show (m.patched writes).isOver = false from hover), hresolved, hmachine]
    rcases hr : m.resolved with cause | ⟨i, effect⟩
    · rfl
    · rw [hr] at h
      exact commit_patched h

/-! ## An execution -/

/-- An execution that spares what is patched is the same. -/
theorem play_patched (events : List Event) (h : (m.play ask events s).1.memory.Spares writes) :
    (m.patched writes).play ask events s = Prod.map (patched writes) id (m.play ask events s) := by
  induction events generalizing m s with
  | nil => rfl
  | cons event events ih =>
    cases event with
    | queue words => exact ih (m := m.extend words) h
    | step =>
      -- a cell that is untouched in the end was untouched after the first step
      have hstep : (m.stepWith ask s).1.memory.Spares writes :=
        h.mono fun a => contains_play ask events _
      rw [play, stepWith_patched hstep]
      exact ih h

/-- **The touched cells are a footprint.** Let a machine run, with any source of input, queueing words
and taking steps in any order, and write any words beforehand to addresses that the run leaves
untouched. At every moment of the run the patched machine then has the same status, output, instruction
pointer, relative base, queue and source as the machine itself, and the same cells wherever the run
touches one. And every patched cell holds what was written to it. -/
theorem touched_cells_are_footprint {σ : Type} (ask : σ → Option Word × σ) (m : Machine) (s : σ)
    (before after : List Event) (writes : List (Word × Word))
    (h : ∀ a ∈ writes.map Prod.fst,
      (m.play ask (before ++ after) s).1.memory.contains a = false) :
    let run := m.play ask (before ++ after) s
    let m' := m.play ask before s
    let n := (m.patched writes).play ask before s
    n.1.status = m'.1.status ∧ n.1.slot = m'.1.slot ∧ n.1.ip = m'.1.ip ∧ n.1.base = m'.1.base ∧
      n.1.queue = m'.1.queue ∧ n.1.config = m'.1.config ∧ n.2 = m'.2 ∧
      (∀ a, run.1.memory.contains a = true →
        n.1.memory.get a = m'.1.memory.get a ∧ n.1.memory.contains a = m'.1.memory.contains a) ∧
      ∀ a ∈ writes.map Prod.fst,
        n.1.memory.get a = (m.memory.writeAll writes).get a ∧ n.1.memory.contains a = true := by
  intro run m' n
  have hspares : run.1.memory.Spares writes := h
  -- so at any moment of the run, what was true of its end is true
  have hnow : m'.1.memory.Spares writes := by
    refine hspares.mono fun a ha => ?_
    show (m.play ask (before ++ after) s).1.memory.contains a = true
    rw [play_append]
    exact contains_play ask after _ ha
  have hn : n = Prod.map (patched writes) id m' := play_patched before hnow
  rw [hn]
  refine ⟨rfl, rfl, rfl, rfl, rfl, rfl, rfl, fun a ha => ?_, fun a ha => ?_⟩
  · have hmem := hspares.not_mem ha
    refine ⟨Memory.get_writeAll hmem, ?_⟩
    show (m'.1.memory.writeAll writes).contains a = _
    rw [Memory.contains_writeAll, decide_eq_false hmem, Bool.false_or]
  · refine ⟨Memory.get_writeAll_congr _ _ ha, ?_⟩
    show (m'.1.memory.writeAll writes).contains a = _
    rw [Memory.contains_writeAll, decide_eq_true ha, Bool.true_or]

/-- A product that does not fit is not stored, so its place is not touched and may be patched. -/
theorem touched_cells_are_footprint_overflow :
    let m := ofProgram ⟨[3, 20, 1102, 2 ^ 62, 2, 50]⟩ { width := .bits64 }
    let events := [Event.queue [5], .step, .step]
    let writes : List (Word × Word) := [(50, 7), (-1, 8), (50, 9)]
    let n := ((m.patched writes).play noSource events ()).1
    (∀ a ∈ writes.map Prod.fst, (m.play noSource (events ++ []) ()).1.memory.contains a = false) ∧
      n.status = .faulted ⟨.overflow (2 ^ 63), 2⟩ ∧ n.ip = 2 ∧ n.queue = [] ∧
      n.memory.get 20 = 5 ∧ n.memory.get 50 = 9 := by
  intro m events writes n
  have hspares : ∀ a ∈ writes.map Prod.fst,
      (m.play noSource (events ++ []) ()).1.memory.contains a = false := by decide +kernel
  obtain ⟨hstatus, -, hip, -, hqueue, -, -, hcells, hwrites⟩ :=
    touched_cells_are_footprint noSource m () events [] writes hspares
  have htouched : (m.play noSource (events ++ []) ()).1.memory.contains 20 = true := by
    decide +kernel
  refine ⟨hspares, hstatus.trans (by decide +kernel), hip.trans (by decide +kernel),
    hqueue.trans (by decide +kernel), (hcells 20 htouched).1.trans (by decide +kernel),
    (hwrites 50 (by decide)).1.trans (by decide +kernel)⟩

end Machine

end Intcode
