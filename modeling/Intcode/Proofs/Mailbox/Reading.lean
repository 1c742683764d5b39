import Mathlib.Data.List.Induction
import Intcode.Mailbox.Reader

/-!
# Giving up on a mailbox

A reader gives up when it looks at a closed mailbox. It looks only after it tried to take a word and
found none, but the look is an action of its own, and writers may act before it. What they append in
between is what the mailbox holds when the reader gives up (`left_when_givesUp`). So a mailbox that is
given up is closed, but it is drained only if nothing was appended between the last try and the look;
and if the mailbox was closed in between as well, words that came before the close stay unread
(`word_left_before_close`).
-/

namespace Intcode.Reader

/-! ## A reader among writers -/

/-- What can happen to a mailbox while its reader waits for a word. -/
inductive Action where
  /-- A writer appends a block of words. -/
  | append (words : List Word)
  /-- Somebody closes the mailbox. -/
  | close
  /-- The reader does what it does next. -/
  | advance
  deriving DecidableEq

/-- The words that an action adds to the mailbox. -/
def Action.words : Action → List Word
  | append words => words
  | close | advance => []

/-- Performs one action. -/
def Action.perform (fallback : Option Word) : Stage × Mailbox → Action → Stage × Mailbox
  | (stage, box), append words => (stage, box.pushAll words)
  | (stage, box), close => (stage, box.close)
  | (stage, box), advance => stage.advance fallback box

/-- The reader and the mailbox after some actions, the first of them on a reader that begins to read. -/
def after (fallback : Option Word) (box : Mailbox) (actions : List Action) : Stage × Mailbox :=
  actions.foldl (Action.perform fallback) (.trying, box)

/-- After these actions the reader has no answer yet, and its next action is to give up. -/
def GivesUp (fallback : Option Word) (box : Mailbox) (actions : List Action) : Prop :=
  (∀ answer, (after fallback box actions).1 ≠ .answered answer) ∧
    (after fallback box (actions ++ [.advance])).1 = .answered none

variable {fallback : Option Word} {box : Mailbox} {actions : List Action}

theorem after_concat (fallback : Option Word) (box : Mailbox) (actions : List Action)
    (action : Action) :
    after fallback box (actions ++ [action]) =
      action.perform fallback (after fallback box actions) := by
  rw [after, List.foldl_append]
  rfl

/-! ## From the last try to the look -/

/-- A reader gives up by looking at a closed mailbox, which it leaves as it is. -/
theorem checking_of_givesUp (h : GivesUp fallback box actions) :
    (after fallback box actions).1 = .checking ∧ (after fallback box actions).2.closed = true ∧
      (after fallback box (actions ++ [.advance])).2 = (after fallback box actions).2 := by
  obtain ⟨hopen, hnone⟩ := h
  rw [after_concat] at hnone ⊢
  rcases hstate : after fallback box actions with ⟨stage, last⟩
  rw [hstate] at hopen hnone
  cases stage with
  | trying =>
    simp only [Action.perform, Stage.advance] at hnone
    split at hnone <;> cases hnone
  | checking =>
    cases hclosed : last.closed with
    | true => simp [Action.perform, Stage.advance, hclosed]
    | false =>
      simp only [Action.perform, Stage.advance, hclosed, Bool.false_eq_true, if_false] at hnone
      split at hnone <;> cases hnone
  | answered answer => exact absurd rfl (hopen answer)

/-- A reader about to look has tried an empty mailbox before. What the mailbox holds now was appended
since then, and if it is closed, it was so then or has been closed since. -/
theorem exists_last_try (h : (after fallback box actions).1 = .checking) :
    ∃ before between, actions = before ++ .advance :: between ∧ .advance ∉ between ∧
      (after fallback box before).1 = .trying ∧ (after fallback box before).2.words = [] ∧
      (after fallback box actions).2.words = between.flatMap Action.words ∧
      ((after fallback box actions).2.closed = true ↔
        (after fallback box before).2.closed = true ∨ .close ∈ between) := by
  induction actions using List.reverseRecOn with
  | nil => cases h
  | append_singleton actions action ih =>
    rw [after_concat] at h ⊢
    rcases hstate : after fallback box actions with ⟨stage, last⟩
    rw [hstate] at h ih
    cases action with
    | append words =>
      obtain ⟨before, between, rfl, hbetween, htrying, hempty, hwords, hclosed⟩ := ih h
      refine ⟨before, between ++ [.append words], ?_, ?_, htrying, hempty, ?_, ?_⟩
      · simp
      · simp [hbetween]
      · simp [Action.perform, Mailbox.pushAll, Action.words, ← hwords]
      · simpa [Action.perform, Mailbox.pushAll] using hclosed
    | close =>
      obtain ⟨before, between, rfl, hbetween, htrying, hempty, hwords, -⟩ := ih h
      refine ⟨before, between ++ [.close], ?_, ?_, htrying, hempty, ?_, ?_⟩
      · simp
      · simp [hbetween]
      · simp [Action.perform, Mailbox.close, Action.words, ← hwords]
      · simp [Action.perform, Mailbox.close]
    | advance =>
      cases stage with
      | trying =>
        cases hwords : last.words with
        | cons word words => simp [Action.perform, Stage.advance, Mailbox.take, hwords] at h
        | nil =>
          refine ⟨actions, [], rfl, List.not_mem_nil, ?_, ?_, ?_, ?_⟩ <;>
            simp [hstate, hwords, Action.perform, Stage.advance, Mailbox.take]
      | checking =>
        -- a look answers or goes back to trying
        simp only [Action.perform, Stage.advance] at h
        split at h
        · cases h
        · split at h <;> cases h
      | answered answer => cases h

/-! ## What is left -/

/-- **What a reader leaves behind.** When a reader gives up, whatever the writers did meanwhile, its
mailbox is closed and holds what was appended between the last try, which found it empty, and the look.
So it is closed and drained exactly if nothing was appended in between; and of what is left, nothing was
there before the close unless the close fell in between too. -/
theorem left_when_givesUp (h : GivesUp fallback box actions) :
    ∃ before between, actions = before ++ .advance :: between ∧ .advance ∉ between ∧
      (after fallback box before).1 = .trying ∧ (after fallback box before).2.words = [] ∧
      ((after fallback box before).2.closed = true ∨ .close ∈ between) ∧
      (after fallback box (actions ++ [.advance])).2.words = between.flatMap Action.words ∧
      (((after fallback box (actions ++ [.advance])).2.closed = true ∧
          (after fallback box (actions ++ [.advance])).2.words = []) ↔
        ∀ action ∈ between, action.words = []) := by
  obtain ⟨hchecking, hclosed, hsame⟩ := checking_of_givesUp h
  obtain ⟨before, between, hactions, hbetween, htrying, hempty, hwords, hcloses⟩ :=
    exists_last_try hchecking
  refine ⟨before, between, hactions, hbetween, htrying, hempty, hcloses.mp hclosed, ?_, ?_⟩
  · rw [hsame, hwords]
  · rw [hsame, hwords, and_iff_right hclosed, List.flatMap_eq_nil_iff]

/-- The reader tries in vain, then two words come and the mailbox is closed. -/
theorem left_when_givesUp_two :
    let actions := [.advance, .append [5, 6], .close]
    GivesUp (some (-1)) .empty actions ∧
      ∃ before between, actions = before ++ .advance :: between ∧ .advance ∉ between ∧
        (after (some (-1)) .empty before).1 = .trying ∧
        (after (some (-1)) .empty before).2.words = [] ∧
        ((after (some (-1)) .empty before).2.closed = true ∨ .close ∈ between) ∧
        (after (some (-1)) .empty (actions ++ [.advance])).2.words =
          between.flatMap Action.words ∧
        (((after (some (-1)) .empty (actions ++ [.advance])).2.closed = true ∧
            (after (some (-1)) .empty (actions ++ [.advance])).2.words = []) ↔
          ∀ action ∈ between, action.words = []) := by
  intro actions
  have hgivesUp : GivesUp (some (-1)) .empty actions := ⟨fun _ => nofun, rfl⟩
  exact ⟨hgivesUp, left_when_givesUp hgivesUp⟩

/-- A word that is appended and followed by the close, both between a try and the look, is left in the
mailbox that the reader gives up on. -/
theorem word_left_before_close :
    GivesUp none .empty [.advance, .append [5], .close] ∧
      (after none .empty [.advance, .append [5], .close, .advance]).2.words = [5] ∧
      ¬ ∀ (fallback : Option Word) (box : Mailbox) (actions : List Action),
        GivesUp fallback box actions →
          (after fallback box (actions ++ [.advance])).2.closed = true ∧
            (after fallback box (actions ++ [.advance])).2.words = [] := by
  have hgivesUp : GivesUp none .empty [.advance, .append [5], .close] :=
    ⟨fun _ => nofun, rfl⟩
  have hwords : (after none .empty [.advance, .append [5], .close, .advance]).2.words = [5] := rfl
  refine ⟨hgivesUp, hwords, fun h => ?_⟩
  obtain ⟨-, hnil⟩ := h none .empty _ hgivesUp
  exact List.cons_ne_nil 5 [] (hwords.symm.trans hnil)

end Intcode.Reader
