import Intcode.Proofs.Network.Turn

/-!
# Logs of networks

A log lists what has happened in a network, in the order in which it did: what its nodes did, and what
the supervisor sent and received. What one node did, which blocks of words went into one mailbox, and
which packets left the network are all read off the log.
-/

namespace Intcode.Network

/-- Something that has happened in a network. -/
inductive Event where
  /-- A node did something. -/
  | node (i : Nat) (event : Node.Event)
  /-- The supervisor sent a block of words to a node. -/
  | sent (i : Nat) (payload : List Word)
  /-- The supervisor received a packet. -/
  | received (packet : Packet)
  deriving DecidableEq

/-- A block of words that was put into a mailbox. -/
structure Deposit where
  /-- The node that sent it, or the supervisor. -/
  source : Option Nat
  payload : List Word
  deriving DecidableEq

/-! ## Events -/

/-- What node `i` did. -/
def Event.of? (i : Nat) : Event → Option Node.Event
  | node j event => if j = i then some event else none
  | sent _ _ | received _ => none

/-- What was put into the mailbox of node `i`. -/
def Event.deposit? (i : Nat) : Event → Option Deposit
  | node j (.routed dest payload) => if dest = i then some ⟨some j, payload⟩ else none
  | sent j payload => if j = i then some ⟨none, payload⟩ else none
  | node _ _ | received _ => none

/-- Whether a destination is no address in a network of `n` nodes. -/
def outside (n : Nat) (dest : Word) : Bool :=
  dest < 0 ∨ (n : Word) ≤ dest

/-- The packet that left a network of `n` nodes. -/
def Event.departed? (n : Nat) : Event → Option Packet
  | node i (.routed dest payload) => if outside n dest then some ⟨i, dest, payload⟩ else none
  | node _ _ | sent _ _ | received _ => none

/-- The packet that the supervisor received. -/
def Event.received? : Event → Option Packet
  | received packet => some packet
  | node _ _ | sent _ _ => none

/-- Events in the order in which they happened. -/
abbrev Log := List Event

namespace Log

/-- What node `i` did. -/
def of (i : Nat) (log : Log) : List Node.Event :=
  log.filterMap (Event.of? i)

/-- The words that node `i` put out. -/
def outputs (i : Nat) (log : Log) : List Word :=
  (log.of i).flatMap Node.Event.output

/-- The packets that node `i` sent. -/
def packets (i : Nat) (log : Log) : List Packet :=
  (log.of i).filterMap (Node.Event.packet? i)

/-- The words that node `i` took from its mailbox. -/
def taken (i : Nat) (log : Log) : List Word :=
  (log.of i).filterMap Node.Event.taken?

/-- What was put into the mailbox of node `i`. -/
def deposits (i : Nat) (log : Log) : List Deposit :=
  log.filterMap (Event.deposit? i)

/-- The words that were put into the mailbox of node `i`. -/
def pushed (i : Nat) (log : Log) : List Word :=
  (log.deposits i).flatMap Deposit.payload

/-- The blocks of words that one sender put into the mailbox of node `i`. -/
def depositsFrom (source : Option Nat) (i : Nat) (log : Log) : List (List Word) :=
  ((log.deposits i).filter fun deposit => deposit.source = source).map Deposit.payload

/-- The packets that left a network of `n` nodes. -/
def departed (n : Nat) (log : Log) : List Packet :=
  log.filterMap (Event.departed? n)

/-- The packets that the supervisor received. -/
def received (log : Log) : List Packet :=
  log.filterMap Event.received?

/-! ## Logs of one event, and logs joined -/

theorem of_toList (i : Nat) (event : Option Event) :
    of i event.toList = (event.bind (Event.of? i)).toList := by
  rcases event with _ | event
  · rfl
  · rw [of, Option.toList_some, List.filterMap_cons]
    rcases h : event.of? i with _ | _ <;> simp [h]

section append

variable (i n : Nat) (log₁ log₂ : Log)

@[simp] theorem of_append : of i (log₁ ++ log₂) = of i log₁ ++ of i log₂ :=
  List.filterMap_append

@[simp] theorem packets_append : packets i (log₁ ++ log₂) = packets i log₁ ++ packets i log₂ := by
  rw [packets, of_append, List.filterMap_append]
  rfl

@[simp] theorem taken_append : taken i (log₁ ++ log₂) = taken i log₁ ++ taken i log₂ := by
  rw [taken, of_append, List.filterMap_append]
  rfl

@[simp] theorem deposits_append :
    deposits i (log₁ ++ log₂) = deposits i log₁ ++ deposits i log₂ :=
  List.filterMap_append

@[simp] theorem pushed_append : pushed i (log₁ ++ log₂) = pushed i log₁ ++ pushed i log₂ := by
  rw [pushed, deposits_append, List.flatMap_append]
  rfl

@[simp] theorem depositsFrom_append (source : Option Nat) :
    depositsFrom source i (log₁ ++ log₂) = depositsFrom source i log₁ ++ depositsFrom source i log₂ := by
  rw [depositsFrom, deposits_append, List.filter_append, List.map_append]
  rfl

@[simp] theorem departed_append :
    departed n (log₁ ++ log₂) = departed n log₁ ++ departed n log₂ :=
  List.filterMap_append

@[simp] theorem received_append : received (log₁ ++ log₂) = received log₁ ++ received log₂ :=
  List.filterMap_append

end append

end Log

end Intcode.Network
