import Intcode.Network.Basic
import Intcode.Proofs.Machine.Steps

/-!
# The turn of a node

What a node does when it is its turn depends on the node alone, apart from what it learns about the
network: the length of packets, the fallback, and whether it has been told to end. `Node.act` is the
node afterwards, and `Node.event?` says what it did. A packet that it sends is part of the event; to
deliver it is up to the network.

A node that finds its mailbox empty, or gives up reading, does nothing that counts as an event. The
other events say everything about the machine: `Node.follow` goes through them again on a node that
has no mailbox.
-/

namespace Intcode

/-- The words of a packet as a node puts them out. -/
def Packet.words (packet : Packet) : List Word :=
  packet.dest :: packet.payload

namespace Node

/-- Something that a node does. -/
inductive Event where
  /-- It executed an instruction, which put out some words. -/
  | executed (out : List Word)
  /-- It kept the words of a packet that was not complete. -/
  | held
  /-- It sent a packet. -/
  | routed (dest : Word) (payload : List Word)
  /-- It took a word from its mailbox. -/
  | took (word : Word)
  /-- It found no word and made do with its fallback. -/
  | madeDo (word : Word)
  deriving DecidableEq

/-- The words that were put out. -/
def Event.output : Event → List Word
  | executed out => out
  | held | routed _ _ | took _ | madeDo _ => []

/-- The packet that was sent by the given node. -/
def Event.packet? (sender : Nat) : Event → Option Packet
  | routed dest payload => some ⟨sender, dest, payload⟩
  | executed _ | held | took _ | madeDo _ => none

/-- The word that was taken from the mailbox. -/
def Event.taken? : Event → Option Word
  | took word => some word
  | executed _ | held | routed _ _ | madeDo _ => none

variable {arity : Nat} {fallback : Option Word} {stopping : Bool}

/-- What a node goes on with after a delivery. -/
def afterDelivery (stopping : Bool) : Phase :=
  if stopping then .ended else .executing

/-- The node after its turn. -/
def act (arity : Nat) (fallback : Option Word) (stopping : Bool) (node : Node) : Node :=
  match node.phase with
  | .ended => node
  | .executing => node.execute
  | .reading stage => node.read fallback stage
  | .delivering =>
    match node.completePacket? arity with
    | none => { node with phase := afterDelivery stopping }
    | some _ => { node with packet := [], phase := afterDelivery stopping }

/-- What the node does in its turn. -/
def event? (arity : Nat) (fallback : Option Word) (node : Node) : Option Event :=
  match node.phase with
  | .ended => none
  | .executing => some (.executed node.machine.step.emission)
  | .reading .trying => node.mailbox.words.head?.map .took
  | .reading .checking => if node.mailbox.closed then none else fallback.map .madeDo
  | .reading (.answered _) => none
  | .delivering =>
    match node.completePacket? arity with
    | none => some .held
    | some (dest, payload) => some (.routed dest payload)

/-- The node after an event, apart from its mailbox. -/
def follow (node : Node) : Event → Node
  | .executed _ => node.execute
  | .held => { node with phase := .executing }
  | .routed _ _ => { node with packet := [], phase := .executing }
  | .took word | .madeDo word =>
    { node with machine := node.machine.push word, phase := .executing }

/-- What is true of nodes at any time: no more words wait to be sent than a packet has, and fewer
except right after an output; and no node stops between an answer and its use. -/
structure Regular (arity : Nat) (node : Node) : Prop where
  length_packet_le : node.packet.length ≤ arity
  length_packet_lt : node.phase ≠ .delivering → node.packet.length < arity
  not_answered : ∀ word, node.phase ≠ .reading (.answered word)

/-! ## The kinds of turns

A turn is the execution of an instruction, a delivery, or a part of reading. `Turn` lists what it can
be, and everything that is said about turns below is said by going through the list. To do nothing is
on it as well, so that all nodes take a turn whenever one does. -/

/-- A node, what it does in a turn, and the node afterwards. -/
inductive Turn (arity : Nat) (fallback : Option Word) (stopping : Bool) (node : Node) :
    Option Event → Node → Prop
  | idle : Turn arity fallback stopping node none node
  | executed : node.phase = .executing →
      Turn arity fallback stopping node (some (.executed node.machine.step.emission)) node.execute
  | held : node.phase = .delivering → node.completePacket? arity = none →
      Turn arity fallback stopping node (some .held)
        { node with phase := afterDelivery stopping }
  | routed {dest : Word} {payload : List Word} : node.phase = .delivering →
      node.packet = dest :: payload → payload.length + 1 = arity →
      Turn arity fallback stopping node (some (.routed dest payload))
        { node with packet := [], phase := afterDelivery stopping }
  | took {word : Word} {words : List Word} : node.phase = .reading .trying →
      node.mailbox.words = word :: words →
      Turn arity fallback stopping node (some (.took word))
        { node with
          mailbox := { node.mailbox with words, emptyReads := 0 }
          machine := node.machine.push word
          phase := .executing }
  | missed : node.phase = .reading .trying → node.mailbox.words = [] →
      Turn arity fallback stopping node none
        { node with mailbox := node.mailbox.take.2, phase := .reading .checking }
  | gaveUp : node.phase = .reading .checking → node.mailbox.closed = true →
      Turn arity fallback stopping node none { node with phase := .ended }
  | madeDo {word : Word} : node.phase = .reading .checking → node.mailbox.closed = false →
      fallback = some word →
      Turn arity fallback stopping node (some (.madeDo word))
        { node with machine := node.machine.push word, phase := .executing }
  | triedAgain : node.phase = .reading .checking → node.mailbox.closed = false →
      fallback = none →
      Turn arity fallback stopping node none { node with phase := .reading .trying }

theorem completePacket?_eq_some_iff {node : Node} {dest : Word} {payload : List Word} :
    node.completePacket? arity = some (dest, payload) ↔
      node.packet = dest :: payload ∧ payload.length + 1 = arity := by
  rw [completePacket?]
  split
  · next h => simp [h]
  · next dest' payload' h =>
    rw [h]
    split
    · next hlength => grind
    · next hlength => grind

/-- Every turn is one of these. -/
theorem turn_act (node : Node) (h : ∀ word, node.phase ≠ .reading (.answered word)) :
    Turn arity fallback stopping node (node.event? arity fallback)
      (node.act arity fallback stopping) := by
  rcases hphase : node.phase with _ | _ | stage | _
  case executing =>
    simp only [event?, act, hphase]
    exact .executed hphase
  case delivering =>
    simp only [event?, act, hphase]
    rcases hpacket : node.completePacket? arity with _ | ⟨dest, payload⟩
    · exact .held hphase hpacket
    · obtain ⟨hdest, hlength⟩ := completePacket?_eq_some_iff.mp hpacket
      exact .routed hphase hdest hlength
  case reading =>
    rcases stage with _ | _ | word
    · simp only [event?, act, hphase, read, Reader.Stage.advance, Mailbox.take]
      rcases hwords : node.mailbox.words with _ | ⟨word, words⟩
      · have hmissed : Turn arity fallback stopping node none _ := .missed hphase hwords
        rwa [Mailbox.take, hwords] at hmissed
      · exact .took hphase hwords
    · simp only [event?, act, hphase, read, Reader.Stage.advance]
      rcases hclosed : node.mailbox.closed with _ | _
      · rcases hfallback : fallback with _ | word
        · exact .triedAgain hphase hclosed rfl
        · exact .madeDo hphase hclosed rfl
      · exact .gaveUp hphase hclosed
    · -- an answer is used in the turn in which it comes
      exact absurd hphase (h word)
  case ended =>
    simp only [event?, act, hphase]
    exact .idle

/-! ## What a turn leaves alone and what it moves -/

/-- The words that an instruction puts out go behind the packet. -/
theorem packet_execute (node : Node) :
    node.execute.packet = node.packet ++ node.machine.step.emission := by
  rw [execute]
  split
  · next h => simp [Machine.emission, h]
  · next h => simp [Machine.emission, h, Machine.takeOutput]
  · next h => simp [Machine.emission, h]
  · next h => simp [Machine.emission, h]
  · next h => simp [Machine.emission, h]

/-- No instruction concerns the mailbox. -/
theorem mailbox_execute (node : Node) : node.execute.mailbox = node.mailbox := by
  rw [execute]
  split <;> rfl

/-- After an output a node delivers, and when it wants a word it starts to read. -/
theorem phase_execute (node : Node) :
    node.execute.phase =
      match node.machine.step.status with
      | .running => node.phase
      | .output => .delivering
      | .awaitingInput => .reading .trying
      | .halted | .faulted _ => .ended := by
  cases hstatus : node.machine.step.status <;> simp only [execute, hstatus]

/-- A packet of no more words than a packet has, but not complete, has fewer. -/
theorem length_packet_lt {node : Node} (harity : 0 < arity) (hle : node.packet.length ≤ arity)
    (h : node.completePacket? arity = none) : node.packet.length < arity := by
  rcases hpacket : node.packet with _ | ⟨dest, payload⟩
  · exact harity
  · have hlength : payload.length + 1 ≠ arity := by
      intro heq
      have hcomplete := completePacket?_eq_some_iff.mpr ⟨hpacket, heq⟩
      rw [h] at hcomplete
      cases hcomplete
    rw [hpacket, List.length_cons] at hle
    rw [List.length_cons]
    omega

/-- A regular node that was not about to deliver may go on with its packet in any way. -/
theorem Regular.goOn {node : Node} (h : node.Regular arity) (hphase : node.phase ≠ .delivering)
    (machine : Machine) (mailbox : Mailbox) {phase : Phase}
    (hanswered : ∀ word, phase ≠ .reading (.answered word)) :
    Regular arity { machine, mailbox, packet := node.packet, phase } :=
  ⟨h.length_packet_le, fun _ => h.length_packet_lt hphase, hanswered⟩

theorem afterDelivery_ne_reading (stage : Reader.Stage) :
    afterDelivery stopping ≠ .reading stage := by
  cases stopping <;> simp [afterDelivery]

/-- A node stays regular. -/
theorem Turn.regular {node node' : Node} {event : Option Event} (harity : 0 < arity)
    (h : Turn arity fallback stopping node event node') (hregular : node.Regular arity) :
    node'.Regular arity := by
  cases h with
  | idle => exact hregular
  | executed hphase =>
    have hlt := hregular.length_packet_lt (by simp [hphase])
    have hone := node.machine.step.length_emission_le
    refine ⟨?_, ?_, ?_⟩
    · rw [packet_execute, List.length_append]
      omega
    · -- only an output makes the packet longer, and after one the node delivers
      intro hdelivering
      have hsilent : node.machine.step.emission = [] := by
        rw [Machine.emission, if_neg]
        intro houtput
        rw [phase_execute, houtput] at hdelivering
        exact hdelivering rfl
      rw [packet_execute, hsilent, List.append_nil]
      exact hlt
    · intro word
      rw [phase_execute]
      split <;> simp [hphase]
  | held hphase hpacket =>
    have hlt := length_packet_lt harity hregular.length_packet_le hpacket
    exact ⟨hregular.length_packet_le, fun _ => hlt, fun _ => afterDelivery_ne_reading _⟩
  | routed hphase hpacket hlength =>
    exact ⟨Nat.zero_le arity, fun _ => harity, fun _ => afterDelivery_ne_reading _⟩
  | took hphase hwords => exact hregular.goOn (by simp [hphase]) _ _ (by simp)
  | missed hphase hwords => exact hregular.goOn (by simp [hphase]) _ _ (by simp)
  | gaveUp hphase hclosed => exact hregular.goOn (by simp [hphase]) _ _ (by simp)
  | madeDo hphase hclosed hfallback => exact hregular.goOn (by simp [hphase]) _ _ (by simp)
  | triedAgain hphase hclosed hfallback => exact hregular.goOn (by simp [hphase]) _ _ (by simp)

/-- The words that were there are the one that is taken, if one is, and those that are left. -/
theorem Turn.words_eq {node node' : Node} {event : Option Event}
    (h : Turn arity fallback stopping node event node') :
    node.mailbox.words = event.toList.filterMap Event.taken? ++ node'.mailbox.words := by
  cases h with
  | executed hphase => exact congrArg Mailbox.words (mailbox_execute node).symm
  | took hphase hwords => exact hwords
  | missed hphase hwords =>
    show node.mailbox.words = node.mailbox.take.2.words
    rw [Mailbox.take, hwords]
  | _ => rfl

/-- A turn neither opens the mailbox nor closes it. -/
theorem Turn.closed_eq {node node' : Node} {event : Option Event}
    (h : Turn arity fallback stopping node event node') :
    node'.mailbox.closed = node.mailbox.closed := by
  cases h with
  | executed hphase => exact congrArg Mailbox.closed (mailbox_execute node)
  | missed hphase hwords =>
    show node.mailbox.take.2.closed = node.mailbox.closed
    rw [Mailbox.take, hwords]
  | _ => rfl

/-- The words that waited to be sent and those put out are the packet that is sent, if one is, and the
words that wait then. -/
theorem Turn.packet_eq {node node' : Node} {event : Option Event}
    (h : Turn arity fallback stopping node event node') (sender : Nat) :
    node.packet ++ event.toList.flatMap Event.output =
      (event.toList.filterMap (Event.packet? sender)).flatMap Packet.words ++ node'.packet := by
  cases h with
  | executed hphase => simp [Event.output, Event.packet?, packet_execute]
  | routed hphase hpacket hlength => simp [Event.output, Event.packet?, Packet.words, hpacket]
  | _ => simp [Event.output, Event.packet?]

/-- A packet that is sent is complete. -/
theorem Turn.length_words {node node' : Node} {event : Option Event}
    (h : Turn arity fallback stopping node event node') (sender : Nat) :
    ∀ packet ∈ event.toList.filterMap (Event.packet? sender), packet.words.length = arity := by
  cases h with
  | routed hphase hpacket hlength => simp [Event.packet?, Packet.words, hlength]
  | _ => simp [Event.packet?]

/-- What a turn does to the machine and to the packet, the event says. -/
theorem Turn.machine_packet_eq {node node' : Node} {event : Option Event}
    (h : Turn arity fallback stopping node event node') :
    node'.machine = (event.toList.foldl Node.follow node).machine ∧
      node'.packet = (event.toList.foldl Node.follow node).packet := by
  cases h <;> exact ⟨rfl, rfl⟩

/-- To the machine and to the packet, events do the same whatever the node is about to do. -/
theorem follow_congr {node₁ node₂ : Node} (hmachine : node₁.machine = node₂.machine)
    (hpacket : node₁.packet = node₂.packet) (events : List Event) :
    (events.foldl Node.follow node₁).machine = (events.foldl Node.follow node₂).machine ∧
      (events.foldl Node.follow node₁).packet = (events.foldl Node.follow node₂).packet := by
  induction events generalizing node₁ node₂ with
  | nil => exact ⟨hmachine, hpacket⟩
  | cons event events ih =>
    refine ih ?_ ?_
    · cases event with
      | executed out =>
        show node₁.execute.machine = node₂.execute.machine
        rw [execute, execute, hmachine]
        split <;> rfl
      | took word => exact congrArg (Machine.push · word) hmachine
      | madeDo word => exact congrArg (Machine.push · word) hmachine
      | _ => exact hmachine
    · cases event with
      | executed out =>
        show node₁.execute.packet = node₂.execute.packet
        rw [packet_execute, packet_execute, hmachine, hpacket]
      | routed dest payload => rfl
      | _ => exact hpacket

end Node

end Intcode
