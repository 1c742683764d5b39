import Intcode.Mailbox.Reader

/-!
# Sources of input

A machine whose queue is empty consults its source of input. A source yields a word or nothing, and
changes by that: a script is used up, and a mailbox loses a word or counts an empty read. The
mailboxes belong to nobody in particular, so a consultation takes and yields all of them.
-/

namespace Intcode

/-- Where input comes from when nothing is queued. -/
inductive Source where
  /-- There is nothing behind the queue. -/
  | absent
  /-- Always the same word. -/
  | constant (word : Word)
  /-- Prepared answers in order, and nothing after the last. -/
  | script (answers : List (Option Word))
  /-- The mailbox with the given number, read with the given fallback. -/
  | mailbox (index : Nat) (fallback : Option Word)
  deriving DecidableEq

/-- Consults a source. -/
def Source.ask : Source × Array Mailbox → Option Word × Source × Array Mailbox
  | (absent, boxes) => (none, absent, boxes)
  | (constant word, boxes) => (some word, constant word, boxes)
  | (script [], boxes) => (none, script [], boxes)
  | (script (answer :: answers), boxes) => (answer, script answers, boxes)
  | (mailbox index fallback, boxes) =>
    match boxes[index]? with
    | none => (none, mailbox index fallback, boxes)
    | some box =>
      let (word, box) := Reader.next fallback box
      (word, mailbox index fallback, boxes.set! index box)

end Intcode
