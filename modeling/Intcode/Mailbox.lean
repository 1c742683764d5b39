import Intcode.Word

/-!
# Mailboxes

A mailbox is a queue of words that several writers fill and one reader empties. Every operation here
is one atomic action on it. A block of words is appended at once, so the blocks of different writers
never interleave.

The mailbox counts how often in a row its reader came and found nothing. Appending, even a block of
no words, and taking a word set the count back to zero. A reader that came back empty-handed often
enough counts as idle. Closing a mailbox leaves its words to be read.
-/

namespace Intcode

/-- A queue of words between machines. -/
structure Mailbox where
  /-- The words in it, the next one first. -/
  words : List Word
  /-- How often in a row the reader found it empty. -/
  emptyReads : Nat
  /-- Whether readers should stop waiting. -/
  closed : Bool
  deriving DecidableEq

namespace Mailbox

/-- A new mailbox, empty and open. -/
def empty : Mailbox where
  words := []
  emptyReads := 0
  closed := false

/-- The count of empty reads goes no further than a word of 64 bits can. -/
def emptyReadLimit : Nat :=
  0xFFFFFFFFFFFFFFFF

/-- Appends a block of words. -/
def pushAll (box : Mailbox) (words : List Word) : Mailbox :=
  { box with words := box.words ++ words, emptyReads := 0 }

/-- Appends one word. -/
def push (box : Mailbox) (word : Word) : Mailbox :=
  box.pushAll [word]

/-- Takes the first word, or counts an empty read. -/
def take (box : Mailbox) : Option Word × Mailbox :=
  match box.words with
  | word :: words => (some word, { box with words, emptyReads := 0 })
  | [] => (none, { box with emptyReads := min (box.emptyReads + 1) emptyReadLimit })

/-- Tells readers to wait no longer. -/
def close (box : Mailbox) : Mailbox :=
  { box with closed := true }

/-- Whether it is empty and its reader came back empty-handed at least `threshold` times. -/
def isIdle (box : Mailbox) (threshold : Nat) : Bool :=
  box.words.isEmpty && threshold ≤ box.emptyReads

/-- Whether every one of some mailboxes is idle. -/
def allIdle (boxes : List Mailbox) (threshold : Nat) : Bool :=
  boxes.all fun box => box.isIdle threshold

end Mailbox

end Intcode
