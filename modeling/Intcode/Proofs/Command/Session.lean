import Intcode.Command.Session
import Intcode.Proofs.Machine.Slot

/-!
# Sessions, tick by tick

A tick of a session is a step of its machine, and what the step puts out is printed or held back
(`Session.showing`). Between two rests of the machine nothing is read, so what a session has come to
when its machine rests is said by what the machine settles as (`Session.exists_tick_of_settles`).
-/

namespace Intcode.Command

/-- Words in decimal, one a line. -/
def decimals (words : List Word) : String :=
  String.join (words.map fun word => Word.text word ++ "\n")

/-- Words as they are shown: as text, or in decimal. -/
def laidOut (asText : Bool) (words : List Word) : String :=
  if asText then Ascii.render words else decimals words

theorem decimals_cons (word : Word) (words : List Word) :
    decimals (word :: words) = Word.text word ++ "\n" ++ decimals words :=
  String.join_cons

namespace Session

variable {s : Session}

/-- What standard output comes to show if the machine puts out these words before it rests. -/
def showing (s : Session) (words : List Word) : String :=
  s.console.out ++ laidOut s.asciiOutput (s.text.toList ++ words)

/-- Words are held back only if they are to be shown as text. -/
def IsOrderly (s : Session) : Prop :=
  s.asciiOutput = false → s.text = #[]

/-! ## One tick -/

/-- The step of a tick, before anything is printed. -/
def stepped (s : Session) : Session :=
  { s.showNext with machine := s.showNext.machine.step }

/-- To show the next instruction is to print on standard error. -/
theorem showNext_eq (s : Session) : ∃ err, s.showNext = { s with console.err := err } := by
  rw [showNext]
  split
  · split
    · exact ⟨_, rfl⟩
    · exact ⟨_, rfl⟩
  · exact ⟨_, rfl⟩

@[simp] theorem machine_stepped (s : Session) : s.stepped.machine = s.machine.step := by
  obtain ⟨err, h⟩ := s.showNext_eq
  rw [stepped, h]

@[simp] theorem asciiOutput_stepped (s : Session) : s.stepped.asciiOutput = s.asciiOutput := by
  obtain ⟨err, h⟩ := s.showNext_eq
  rw [stepped, h]

@[simp] theorem text_stepped (s : Session) : s.stepped.text = s.text := by
  obtain ⟨err, h⟩ := s.showNext_eq
  rw [stepped, h]

@[simp] theorem out_stepped (s : Session) : s.stepped.console.out = s.console.out := by
  obtain ⟨err, h⟩ := s.showNext_eq
  rw [stepped, h]

theorem showing_stepped (s : Session) (words : List Word) :
    s.stepped.showing words = s.showing words := by
  rw [showing, showing, out_stepped, asciiOutput_stepped, text_stepped]

theorem IsOrderly.stepped (h : s.IsOrderly) : s.stepped.IsOrderly := by
  intro hplain
  rw [text_stepped]
  exact h (s.asciiOutput_stepped ▸ hplain)

@[simp] theorem machine_flush (s : Session) : s.flush.machine = s.machine := by
  rw [flush]
  split <;> rfl

@[simp] theorem asciiOutput_flush (s : Session) : s.flush.asciiOutput = s.asciiOutput := by
  rw [flush]
  split <;> rfl

@[simp] theorem text_flush (s : Session) : s.flush.text = #[] := by
  rw [flush]
  split
  · next h => exact Array.isEmpty_iff.mp h
  · rfl

/-- To flush is to show the words that are held back. -/
theorem out_flush (h : s.IsOrderly) : s.flush.console.out = s.showing [] := by
  rw [flush, showing, List.append_nil]
  split
  · next htext =>
    have hnone : laidOut s.asciiOutput s.text.toList = "" := by
      rw [Array.isEmpty_iff.mp htext, laidOut]
      split <;> rfl
    rw [hnone, String.append_empty]
  · next htext =>
    have hascii : s.asciiOutput = true := by
      by_contra hnot
      exact htext (Array.isEmpty_iff.mpr (h (Bool.eq_false_iff.mpr hnot)))
    rw [hascii]
    rfl

/-- A word that is printed or held back now is shown where it would have been shown later. -/
theorem emit_eq (h : s.IsOrderly) (word : Word) :
    (s.emit word).machine = s.machine ∧ (s.emit word).asciiOutput = s.asciiOutput ∧
      (s.emit word).IsOrderly ∧ ∀ words, (s.emit word).showing words = s.showing (word :: words) := by
  cases hascii : s.asciiOutput with
  | true =>
    have hemit : s.emit word = { s with text := s.text.push word } := if_pos hascii
    rw [hemit]
    refine ⟨rfl, hascii, fun hplain => ?_, fun words => ?_⟩
    · cases hascii.symm.trans hplain
    · rw [showing, showing, Array.toList_push, List.append_assoc]
      rfl
  | false =>
    have hemit : s.emit word =
        { s with console := s.console.print (Word.text word ++ "\n") } :=
      if_neg (by rw [hascii]; exact Bool.false_ne_true)
    have hplain (words : List Word) : laidOut s.asciiOutput (s.text.toList ++ words) =
        decimals words := by
      rw [hascii, h hascii]
      rfl
    rw [hemit]
    refine ⟨rfl, hascii, h, fun words => ?_⟩
    show s.console.out ++ (Word.text word ++ "\n") ++ laidOut s.asciiOutput (s.text.toList ++ words) =
      s.console.out ++ laidOut s.asciiOutput (s.text.toList ++ word :: words)
    rw [hplain, hplain, decimals_cons, String.append_assoc]

/-- So is a word that is taken out of the slot. -/
theorem takeOutput_eq (h : s.IsOrderly) :
    s.takeOutput.machine = s.machine.cleared ∧ s.takeOutput.asciiOutput = s.asciiOutput ∧
      s.takeOutput.IsOrderly ∧
      ∀ words, s.takeOutput.showing words = s.showing (s.machine.slot.toList ++ words) := by
  have htake : s.machine.takeOutput = (s.machine.slot, s.machine.cleared) := rfl
  rw [takeOutput, htake]
  cases s.machine.slot with
  | none => exact ⟨rfl, rfl, h, fun words => rfl⟩
  | some word =>
    have horderly : ({ s with machine := s.machine.cleared } : Session).IsOrderly := h
    exact emit_eq horderly word

theorem tick_of_running (h : s.machine.step.status = .running) : s.tick = s.stepped := by
  have hs : s.stepped.machine.status = .running := by rw [machine_stepped, h]
  simp only [stepped] at hs ⊢
  simp only [tick, hs]

theorem tick_of_output (h : s.machine.step.status = .output) : s.tick = s.stepped.takeOutput := by
  have hs : s.stepped.machine.status = .output := by rw [machine_stepped, h]
  simp only [stepped] at hs ⊢
  simp only [tick, hs]

/-- When the machine rests, all that is held back is printed, and a fault is told on standard error. -/
theorem tick_of_isAtRest (h : s.machine.step.isAtRest = true) :
    ∃ err, s.tick = { s.stepped.flush with console.err := err } := by
  cases hs : s.machine.step.status with
  | running | output =>
    rw [Machine.isAtRest, hs] at h
    cases h
  | awaitingInput | halted | faulted =>
    have hstepped : s.stepped.machine.status = _ := s.machine_stepped ▸ hs
    simp only [stepped] at hstepped ⊢
    simp only [tick, hstepped]
    exact ⟨_, rfl⟩

/-- A tick that does not bring the machine to rest: what is shown in the end is the same as if the word
that the step puts out were still to come. -/
theorem IsOrderly.tick_of_moving (h : s.IsOrderly) (hrest : s.machine.step.isAtRest = false) :
    s.tick.machine.cleared = s.machine.step.cleared ∧ s.tick.asciiOutput = s.asciiOutput ∧
      s.tick.IsOrderly ∧
      ∀ words, s.tick.showing words = s.showing (s.machine.step.emission ++ words) := by
  cases hs : s.machine.step.status with
  | running =>
    have hsilent : s.machine.step.emission = [] := by simp [Machine.emission, hs]
    rw [tick_of_running hs, machine_stepped, asciiOutput_stepped, hsilent]
    exact ⟨rfl, rfl, h.stepped, fun words => s.showing_stepped words⟩
  | output =>
    have hemission : s.machine.step.emission = s.machine.step.slot.toList := if_pos hs
    obtain ⟨hmachine, hascii, horderly, hshowing⟩ := takeOutput_eq h.stepped
    rw [machine_stepped] at hmachine hshowing
    rw [tick_of_output hs, hmachine, hascii, asciiOutput_stepped, hemission]
    exact ⟨rfl, rfl, horderly, fun words => (hshowing words).trans (s.showing_stepped _)⟩
  | awaitingInput | halted | faulted =>
    rw [Machine.isAtRest, hs] at hrest
    cases hrest

/-- A tick that brings the machine to rest shows all the words that were held back. -/
theorem IsOrderly.tick_of_resting (h : s.IsOrderly) (hrest : s.machine.step.isAtRest = true) :
    s.tick.machine = s.machine.step ∧ s.tick.asciiOutput = s.asciiOutput ∧ s.tick.text = #[] ∧
      s.tick.console.out = s.showing [] := by
  obtain ⟨err, htick⟩ := tick_of_isAtRest hrest
  rw [htick]
  refine ⟨?_, ?_, s.stepped.text_flush, (out_flush h.stepped).trans (s.showing_stepped [])⟩
  · exact s.stepped.machine_flush.trans s.machine_stepped
  · exact s.stepped.asciiOutput_flush.trans s.asciiOutput_stepped

/-! ## Many ticks -/

variable {m n : Machine} {fuel : Nat} {lines : List (List UInt8)} {report : Report}

theorem play_succ (s : Session) (fuel : Nat) (lines : List (List UInt8)) :
    s.play (fuel + 1) lines =
      match s.tick.machine.status with
      | .running | .output => s.tick.play fuel lines
      | .halted => some (s.tick.finish .success)
      | .faulted _ => some (s.tick.finish .faulted)
      | .awaitingInput =>
        match lines with
        | [] => some ((s.tick.complain s.tick.starvedMessage).finish .starved)
        | line :: rest =>
          match s.tick.feed line with
          | .error message => some ((s.tick.complain message).finish .refused)
          | .ok next => next.play fuel rest := by
  rfl

theorem play_succ_of_not_isAtRest (h : s.tick.machine.isAtRest = false) (fuel : Nat)
    (lines : List (List UInt8)) : s.play (fuel + 1) lines = s.tick.play fuel lines := by
  rw [play_succ]
  cases hs : s.tick.machine.status with
  | running | output => rfl
  | awaitingInput | halted | faulted =>
    rw [Machine.isAtRest, hs] at h
    cases h

/-- A larger bound does not change what a session comes to. -/
theorem play_mono (h : s.play fuel lines = some report) (more : Nat) :
    s.play (fuel + more) lines = some report := by
  induction fuel generalizing s lines with
  | zero => cases h
  | succ fuel ih =>
    rw [Nat.succ_add]
    rw [play_succ] at h ⊢
    cases hs : s.tick.machine.status with
    | running | output =>
      simp only [hs] at h ⊢
      exact ih h
    | halted | faulted => simpa only [hs] using h
    | awaitingInput =>
      simp only [hs] at h ⊢
      cases lines with
      | nil => exact h
      | cons line rest =>
        cases hfeed : s.tick.feed line with
        | error message => simpa only [hfeed] using h
        | ok next =>
          simp only [hfeed] at h ⊢
          exact ih h

/-- A session comes to one end. -/
theorem play_unique {fuel' : Nat} {report' : Report} (h : s.play fuel lines = some report)
    (h' : s.play fuel' lines = some report') : report = report' := by
  have hmore := play_mono h fuel'
  rw [Nat.add_comm, play_mono h' fuel] at hmore
  exact (Option.some.inj hmore).symm

/-- Until the machine rests, nothing is read; and when it rests, what it has put out is shown. -/
theorem exists_tick_of_settles {out : List Word} (h : m.Settles out n)
    (hm : s.machine.cleared = m.cleared) (horderly : s.IsOrderly) :
    ∃ k last, (∀ fuel lines, s.play (fuel + k) lines = play fuel last lines) ∧
      last.tick.machine.cleared = n.cleared ∧ last.tick.asciiOutput = s.asciiOutput ∧
      last.tick.text = #[] ∧ last.tick.console.out = s.showing out := by
  obtain ⟨bound, hdrain⟩ := Machine.exists_drain_iff.mpr h
  clear h
  induction bound generalizing m s out with
  | zero => cases hdrain
  | succ bound ih =>
    obtain ⟨hstep, hemission⟩ := Machine.step_of_cleared_eq hm
    have hsame := Machine.isAtRest_of_cleared_eq hstep
    rw [Machine.drain_succ] at hdrain
    split at hdrain
    · next hrest =>
      cases hdrain
      obtain ⟨hmachine, hascii, htext, hout⟩ := horderly.tick_of_resting (hsame.trans hrest)
      exact ⟨0, s, fun _ _ => rfl, hmachine ▸ hstep, hascii, htext, hout⟩
    · next hrest =>
      obtain ⟨⟨later, l⟩, hdrain', heq⟩ := Option.map_eq_some_iff.mp hdrain
      obtain ⟨rfl, rfl⟩ := Prod.ext_iff.mp heq
      have hmoving : s.machine.step.isAtRest = false := hsame.trans (Bool.eq_false_iff.mpr hrest)
      obtain ⟨hcleared, hascii, horderly', hshowing⟩ := horderly.tick_of_moving hmoving
      have htick : s.tick.machine.isAtRest = false :=
        (Machine.isAtRest_of_cleared_eq hcleared).trans hmoving
      obtain ⟨k, last, hplay, hlast, hascii', htext, hout⟩ :=
        ih (hcleared.trans hstep) horderly' hdrain'
      refine ⟨k + 1, last, fun fuel lines => ?_, hlast, hascii'.trans hascii, htext, ?_⟩
      · rw [← Nat.add_assoc, play_succ_of_not_isAtRest htick, hplay]
      · rw [hout, hshowing, hemission]

/-- Only a machine that comes to rest lets a session come to an end. -/
theorem exists_settles_of_play (h : s.play fuel lines = some report)
    (hm : s.machine.cleared = m.cleared) (horderly : s.IsOrderly) : ∃ out n, m.Settles out n := by
  induction fuel generalizing m s with
  | zero => cases h
  | succ fuel ih =>
    obtain ⟨hstep, -⟩ := Machine.step_of_cleared_eq hm
    cases hrest : m.step.isAtRest with
    | true => exact ⟨[], m.step, Machine.settles_step_of_isAtRest hrest⟩
    | false =>
      have hmoving : s.machine.step.isAtRest = false :=
        (Machine.isAtRest_of_cleared_eq hstep).trans hrest
      obtain ⟨hcleared, -, horderly', -⟩ := horderly.tick_of_moving hmoving
      have htick : s.tick.machine.isAtRest = false :=
        (Machine.isAtRest_of_cleared_eq hcleared).trans hmoving
      rw [play_succ_of_not_isAtRest htick] at h
      obtain ⟨out, n, hsettles⟩ := ih h (hcleared.trans hstep) horderly'
      exact ⟨_, n, Machine.settles_append_emission_iff.mpr hsettles⟩

end Session

end Intcode.Command
