import Intcode.Mailbox

/-!
# Reading from a mailbox

A reader that wants a word tries to take one. When it found none, it looks whether the mailbox is
closed; if so it gives up. If not, it settles for a fallback word when it has one, and tries again
when it has none. Trying and looking are separate actions, between which a writer may act.

`Reader.Stage.advance` is one such action. `Reader.attempt` is a try and the look that follows it with
nobody in between.
-/

namespace Intcode.Reader

/-- Where a reader stands between two actions. -/
inductive Stage where
  /-- It is about to try to take a word. -/
  | trying
  /-- It found nothing and is about to look whether the mailbox is closed. -/
  | checking
  /-- It has its answer: a word, or that there will be none. -/
  | answered (word : Option Word)
  deriving DecidableEq

/-- The next action of a reader with the given fallback. -/
def Stage.advance (fallback : Option Word) (box : Mailbox) : Stage → Stage × Mailbox
  | trying =>
    match box.take with
    | (some word, box) => (answered (some word), box)
    | (none, box) => (checking, box)
  | checking =>
    if box.closed then (answered none, box)
    else
      match fallback with
      | some word => (answered (some word), box)
      | none => (trying, box)
  | answered word => (answered word, box)

/-- One undisturbed attempt. It leaves the stage `trying` exactly when the reader has to wait: the
mailbox is empty and open, and there is no fallback. -/
def attempt (fallback : Option Word) (box : Mailbox) : Stage × Mailbox :=
  let (stage, box) := Stage.trying.advance fallback box
  stage.advance fallback box

/-- The word that an undisturbed attempt yields. -/
def next (fallback : Option Word) (box : Mailbox) : Option Word × Mailbox :=
  match attempt fallback box with
  | (.answered word, box) => (word, box)
  | (_, box) => (none, box)

end Intcode.Reader
