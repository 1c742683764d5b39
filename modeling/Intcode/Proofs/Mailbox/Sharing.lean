import Mathlib.Data.List.Induction
import Mathlib.Logic.Function.Basic
import Intcode.Mailbox.Reader

/-!
# A mailbox in many hands

Any number of writers append words to one mailbox, in blocks or one at a time, while any number of
readers take words from it and anybody may close it. Each of these actions is atomic, and they come in
any order; a call that reads with a fallback is several actions, between which others may act.

What the mailbox holds at any time can be told from what has happened (`Mailbox.Agrees`). The words that
were taken, followed by those that are left, are the blocks in the order in which they were appended. It
is closed from the first close on. The count of empty reads is that of the tries that have failed since a
block was appended or a word was taken, as far as it can be counted.

## Shape of the proof

Whatever is done, what happens is one of four events, and the mailbox before and after differ by what
that event does (`Event.Changes`), whichever action it came from (`changes_act`). The log is extended by
the same event, so the mailbox agrees with the log after it if it did before (`Agrees.concat`).
-/

namespace Intcode.Mailbox

variable {ω κ : Type}

/-! ## Actions -/

/-- Something that is done to a mailbox, in one piece. Writers and calls that read have names of any
kind. -/
inductive Action (ω κ : Type) where
  /-- A writer appends a block of words. -/
  | append (writer : ω) (words : List Word)
  /-- A writer appends one word. -/
  | push (writer : ω) (word : Word)
  /-- Somebody tries to take a word. Those who wait for one for a while do so once they have waited. -/
  | pop
  | close
  /-- A call that reads does what it does next. -/
  | advance (call : κ)

/-- A mailbox and where the calls that read from it stand. -/
structure Shared (κ : Type) where
  box : Mailbox
  stage : κ → Reader.Stage

/-- A new mailbox, before anybody has read from it. -/
def Shared.new : Shared κ where
  box := .empty
  stage _ := .trying

/-- Performs an action. Every call has a fallback of its own, or none. -/
def Shared.act [DecidableEq κ] (fallback : κ → Option Word) (s : Shared κ) :
    Action ω κ → Shared κ
  | .append _ words => { s with box := s.box.pushAll words }
  | .push _ word => { s with box := s.box.push word }
  | .pop => { s with box := s.box.take.2 }
  | .close => { s with box := s.box.close }
  | .advance call =>
    let (stage, box) := (s.stage call).advance (fallback call) s.box
    { box, stage := Function.update s.stage call stage }

/-- Performs actions one after the other. -/
def Shared.perform [DecidableEq κ] (fallback : κ → Option Word) (s : Shared κ)
    (actions : List (Action ω κ)) : Shared κ :=
  actions.foldl (act fallback) s

/-- The block that an action appends, and who does so. A single word is a block of its own. -/
def Action.block? : Action ω κ → Option (ω × List Word)
  | append writer words => some (writer, words)
  | push writer word => some (writer, [word])
  | pop | close | advance _ => none

/-- The words that an action appends. -/
def Action.words (action : Action ω κ) : List Word :=
  (action.block?.map Prod.snd).getD []

/-! ## What has happened -/

/-- What an action comes to. -/
inductive Event (ω : Type) where
  | appended (writer : ω) (words : List Word)
  /-- A word was taken, or there was none. -/
  | tried (answer : Option Word)
  | closed
  /-- A call looked whether the mailbox is closed, or had its answer already. -/
  | looked

/-- The word with which a call that reads comes back. -/
def answerAt : Reader.Stage → Option Word
  | .answered word => word
  | .trying | .checking => none

/-- What an action comes to that is performed now: for a try, the word that it yields to whoever
tries. -/
def Shared.event (fallback : κ → Option Word) (s : Shared κ) : Action ω κ → Event ω
  | .append writer words => .appended writer words
  | .push writer word => .appended writer [word]
  | .pop => .tried s.box.take.1
  | .close => .closed
  | .advance call =>
    match s.stage call with
    | .trying => .tried (answerAt (Reader.Stage.trying.advance (fallback call) s.box).1)
    | .checking | .answered _ => .looked

/-- What happens in the course of actions. -/
def Shared.log [DecidableEq κ] (fallback : κ → Option Word) (s : Shared κ) :
    List (Action ω κ) → List (Event ω)
  | [] => []
  | action :: actions => s.event fallback action :: log fallback (s.act fallback action) actions

/-- The words that were appended. -/
def Event.words : Event ω → List Word
  | appended _ words => words
  | tried _ | closed | looked => []

/-- The word that was taken. -/
def Event.taken? : Event ω → Option Word
  | tried answer => answer
  | appended _ _ | closed | looked => none

/-- Whether somebody tried to take a word and found none. -/
def Event.isMiss : Event ω → Bool
  | tried none => true
  | tried (some _) | appended _ _ | closed | looked => false

/-- Whether a block was appended, be it one of no words, or a word was taken. -/
def Event.isMove : Event ω → Bool
  | appended _ _ | tried (some _) => true
  | tried none | closed | looked => false

/-- The number of failed tries since the last move. -/
def misses (log : List (Event ω)) : Nat :=
  (log.reverse.takeWhile fun event => !event.isMove).countP Event.isMiss

theorem misses_concat (log : List (Event ω)) (event : Event ω) :
    misses (log ++ [event]) =
      if event.isMove then 0 else misses log + if event.isMiss then 1 else 0 := by
  rw [misses, List.reverse_concat, List.takeWhile_cons]
  cases event.isMove with
  | true => rfl
  | false => exact List.countP_cons

/-! ## What an event does to the mailbox -/

/-- What happens takes the mailbox from `box` to `next`. -/
structure Event.Changes (event : Event ω) (box next : Mailbox) : Prop where
  /-- Words are taken in front and appended behind. -/
  words_eq : event.taken?.toList ++ next.words = box.words ++ event.words
  closed_iff : next.closed = true ↔ box.closed = true ∨ event = .closed
  emptyReads_eq : next.emptyReads =
    if event.isMove then 0
    else min (box.emptyReads + if event.isMiss then 1 else 0) emptyReadLimit

variable {box next : Mailbox} {event : Event ω} {log : List (Event ω)}

theorem changes_append (box : Mailbox) (writer : ω) (words : List Word) :
    (Event.appended writer words).Changes box (box.pushAll words) where
  words_eq := rfl
  closed_iff := by simp [pushAll]
  emptyReads_eq := rfl

theorem changes_push (box : Mailbox) (writer : ω) (word : Word) :
    (Event.appended writer [word]).Changes box (box.push word) :=
  changes_append box writer [word]

theorem changes_take (box : Mailbox) :
    (Event.tried box.take.1 : Event ω).Changes box box.take.2 := by
  cases hwords : box.words with
  | nil => constructor <;> simp [take, hwords, Event.taken?, Event.words, Event.isMove, Event.isMiss]
  | cons word words => constructor <;> simp [take, hwords, Event.taken?, Event.words, Event.isMove]

theorem changes_close (h : box.emptyReads ≤ emptyReadLimit) :
    (Event.closed : Event ω).Changes box box.close where
  words_eq := (List.append_nil _).symm
  closed_iff := by simp [close]
  emptyReads_eq := (Nat.min_eq_left h).symm

theorem changes_look (h : box.emptyReads ≤ emptyReadLimit) :
    (Event.looked : Event ω).Changes box box where
  words_eq := (List.append_nil _).symm
  closed_iff := by simp
  emptyReads_eq := (Nat.min_eq_left h).symm

/-- A call that does not try now leaves the mailbox as it is. -/
theorem box_act_advance [DecidableEq κ] (fallback : κ → Option Word) (s : Shared κ) {call : κ}
    (h : s.stage call ≠ .trying) : (s.act fallback (.advance call : Action ω κ)).box = s.box := by
  cases hstage : s.stage call with
  | trying => exact absurd hstage h
  | checking =>
    simp only [Shared.act, hstage, Reader.Stage.advance]
    split
    · rfl
    · cases fallback call <;> rfl
  | answered word => simp only [Shared.act, hstage, Reader.Stage.advance]

/-- An action does to the mailbox what it comes to. -/
theorem changes_act [DecidableEq κ] (fallback : κ → Option Word) (s : Shared κ)
    (h : s.box.emptyReads ≤ emptyReadLimit) (action : Action ω κ) :
    (s.event fallback action).Changes s.box (s.act fallback action).box := by
  cases action with
  | append writer words => exact changes_append s.box writer words
  | push writer word => exact changes_push s.box writer word
  | pop => exact changes_take s.box
  | close => exact changes_close h
  | advance call =>
    cases hstage : s.stage call with
    | trying =>
      have htake := changes_take (ω := ω) s.box
      simp only [Shared.act, Shared.event, hstage, Reader.Stage.advance]
      rcases hbox : s.box.take with ⟨_ | word, box⟩ <;> rw [hbox] at htake <;> exact htake
    | checking =>
      rw [box_act_advance fallback s (by simp [hstage]), Shared.event, hstage]
      exact changes_look h
    | answered word =>
      rw [box_act_advance fallback s (by simp [hstage]), Shared.event, hstage]
      exact changes_look h

/-! ## The mailbox and its log -/

/-- The mailbox is as it has to be after all that has happened to it. -/
structure Agrees (box : Mailbox) (log : List (Event ω)) : Prop where
  words_eq : log.filterMap Event.taken? ++ box.words = log.flatMap Event.words
  closed_iff : box.closed = true ↔ .closed ∈ log
  emptyReads_eq : box.emptyReads = min (misses log) emptyReadLimit

theorem agrees_empty : empty.Agrees ([] : List (Event ω)) where
  words_eq := rfl
  closed_iff := by simp [empty]
  emptyReads_eq := rfl

/-- What happens next is taken into account. -/
theorem Agrees.concat (h : box.Agrees log) (hchanges : event.Changes box next) :
    next.Agrees (log ++ [event]) where
  words_eq := by
    have htaken : [event].filterMap Event.taken? = event.taken?.toList := by
      rw [List.filterMap_cons]
      cases event.taken? <;> rfl
    rw [List.filterMap_append, htaken, List.append_assoc, hchanges.words_eq, ← List.append_assoc,
      h.words_eq, List.flatMap_append, List.flatMap_singleton]
  closed_iff := by
    rw [hchanges.closed_iff, h.closed_iff, List.mem_append, List.mem_singleton, eq_comm (a := event)]
  emptyReads_eq := by
    rw [hchanges.emptyReads_eq, misses_concat, h.emptyReads_eq]
    split
    · rfl
    · omega

section Perform

variable [DecidableEq κ] (fallback : κ → Option Word)

theorem perform_append (s : Shared κ) (actions later : List (Action ω κ)) :
    s.perform fallback (actions ++ later) = (s.perform fallback actions).perform fallback later :=
  List.foldl_append

theorem log_concat (s : Shared κ) (actions : List (Action ω κ)) (action : Action ω κ) :
    s.log fallback (actions ++ [action]) =
      s.log fallback actions ++ [(s.perform fallback actions).event fallback action] := by
  induction actions generalizing s with
  | nil => rfl
  | cons first actions ih =>
    rw [List.cons_append, Shared.log, ih, Shared.log]
    rfl

/-- Whatever was done to a new mailbox, it agrees with what has happened. -/
theorem agrees_perform (actions : List (Action ω κ)) :
    (Shared.new.perform fallback actions).box.Agrees (Shared.new.log fallback actions) := by
  induction actions using List.reverseRecOn with
  | nil => exact agrees_empty
  | append_singleton actions action ih =>
    have hcounted : (Shared.new.perform fallback actions).box.emptyReads ≤ emptyReadLimit :=
      ih.emptyReads_eq ▸ Nat.min_le_right _ _
    rw [perform_append, log_concat]
    exact ih.concat (changes_act fallback _ hcounted action)

/-- The blocks in the log are those of the actions. -/
theorem flatMap_words_log (s : Shared κ) (actions : List (Action ω κ)) :
    (s.log fallback actions).flatMap Event.words = actions.flatMap Action.words := by
  induction actions generalizing s with
  | nil => rfl
  | cons action actions ih =>
    have hwords : (s.event fallback action).words = action.words := by
      cases action with
      | advance call =>
        rw [Shared.event]
        cases s.stage call <;> rfl
      | _ => rfl
    rw [Shared.log, List.flatMap_cons, List.flatMap_cons, hwords, ih]

theorem closed_mem_log_iff (s : Shared κ) (actions : List (Action ω κ)) :
    .closed ∈ s.log fallback actions ↔ .close ∈ actions := by
  induction actions generalizing s with
  | nil => simp [Shared.log]
  | cons action actions ih =>
    have hclose : .closed = s.event fallback action ↔ .close = action := by
      cases action with
      | advance call =>
        rw [Shared.event]
        cases s.stage call <;> simp
      | _ => simp [Shared.event]
    rw [Shared.log, List.mem_cons, List.mem_cons, hclose, ih]

end Perform

/-- **A shared mailbox loses no word and counts failed tries exactly.** Whatever was done to a new
mailbox, by any number of writers and calls that read, in any order: the words that were taken, followed
by those in the mailbox, are the blocks in the order in which they were appended, each in one piece, a
single word being a block of its own. The mailbox is closed if somebody has closed it, and stays so. The
count of empty reads is the number of tries that have failed since the last block was appended, be it an
empty one, or the last word was taken, up to the limit; and the mailbox is idle at a threshold if it is
empty and that number has reached the threshold. -/
theorem shared_mailbox_is_lossless [DecidableEq κ] (fallback : κ → Option Word)
    (actions : List (Action ω κ)) :
    let s := Shared.new.perform fallback actions
    let log := Shared.new.log fallback actions
    log.filterMap Event.taken? ++ s.box.words = actions.flatMap Action.words ∧
    (∀ before first between second later writer block writer' block',
      actions = before ++ first :: (between ++ second :: later) →
        first.block? = some (writer, block) → second.block? = some (writer', block') →
          log.filterMap Event.taken? ++ s.box.words =
            before.flatMap Action.words ++ block ++ between.flatMap Action.words ++ block' ++
              later.flatMap Action.words) ∧
    (s.box.closed = true ↔ .close ∈ actions) ∧
    (∀ later : List (Action ω κ), s.box.closed = true →
      (s.perform fallback later).box.closed = true) ∧
    s.box.emptyReads = min (misses log) emptyReadLimit ∧
    ∀ threshold, threshold ≤ emptyReadLimit →
      (s.box.isIdle threshold = true ↔ s.box.words = [] ∧ threshold ≤ misses log) := by
  intro s log
  have hagrees : s.box.Agrees log := agrees_perform fallback actions
  have hwords := hagrees.words_eq.trans (flatMap_words_log fallback Shared.new actions)
  have hclosed (actions : List (Action ω κ)) :
      (Shared.new.perform fallback actions).box.closed = true ↔ .close ∈ actions :=
    (agrees_perform fallback actions).closed_iff.trans (closed_mem_log_iff fallback _ actions)
  refine ⟨hwords, ?_, hclosed actions, ?_, hagrees.emptyReads_eq, ?_⟩
  · rintro before first between second later writer block writer' block' rfl hfirst hsecond
    have hblock : first.words = block := by rw [Action.words, hfirst]; rfl
    have hblock' : second.words = block' := by rw [Action.words, hsecond]; rfl
    simp only [hwords, List.flatMap_append, List.flatMap_cons, hblock, hblock', List.append_assoc]
  · intro later hs
    rw [← perform_append, hclosed]
    exact List.mem_append_left later ((hclosed actions).mp hs)
  · intro threshold hthreshold
    simp only [isIdle, hagrees.emptyReads_eq, Bool.and_eq_true, List.isEmpty_iff,
      decide_eq_true_eq, Nat.le_min, hthreshold, and_true]

/-- Two writers, a call that reads with a fallback and one that waits: the first one takes a word, the
other one tries twice in vain. -/
theorem shared_mailbox_is_lossless_two_writers :
    let fallback : Bool → Option Word := fun call => if call then some (-1) else none
    let actions : List (Action (Fin 2) Bool) :=
      [.append 0 [5, 6], .advance true, .append 1 [], .push 1 7, .pop, .pop, .advance false,
        .advance false, .advance false, .close, .pop]
    let s := Shared.new.perform fallback actions
    let log := Shared.new.log fallback actions
    log.filterMap Event.taken? ++ s.box.words = [] ++ [5, 6] ++ [] ++ [7] ++ [] ∧
      (s.perform fallback [.push 0 8]).box.closed = true ∧
      3 ≤ emptyReadLimit ∧ (s.box.isIdle 3 = true ↔ s.box.words = [] ∧ 3 ≤ misses log) ∧
      misses log = 3 := by
  intro fallback actions s log
  obtain ⟨-, hblocks, hclosed, hstays, -, hidle⟩ := shared_mailbox_is_lossless fallback actions
  have hlimit : 3 ≤ emptyReadLimit := by decide
  have hfirst := hblocks [] _ [.advance true, .append 1 []] (.push 1 7) _ 0 [5, 6] 1 [7] rfl rfl rfl
  have hclose : s.box.closed = true := hclosed.mpr (by simp [actions])
  exact ⟨hfirst, hstays [.push 0 8] hclose, hlimit, hidle 3 hlimit, by decide⟩

end Intcode.Mailbox
