import Intcode.Machine.Run
import Intcode.Mailbox.Reader

/-!
# Networks

A network is a number of machines that run one program and exchange packets. Node `i` begins with its
own address `i` in its queue and then reads from its mailbox. The words that it puts out form packets
of fixed length: a destination and a payload. The payload of a packet for a node of the network is
appended to that node's mailbox as one block; all other packets go out to the supervisor.

## One action at a time

The nodes run side by side. `Network.advance i` is the next action of node `i`, and no action looks at
or changes more than one mailbox, or more than the line to the supervisor. So what a network can do is
what some sequence of actions of its nodes and of its supervisor does. A node learns only after its
deliveries that it has been told to end.

A node that needs input goes through the stages of a reader. Its machine stays suspended at the input
instruction, which is executed anew when a word has come.
-/

namespace Intcode

/-- A packet for a destination outside the network. -/
structure Packet where
  /-- The node that sent it. -/
  sender : Nat
  dest : Word
  payload : List Word
  deriving DecidableEq

/-- What a node is about to do. -/
inductive Node.Phase where
  /-- Execute an instruction. -/
  | executing
  /-- Send its packet, should that be complete. -/
  | delivering
  /-- Read from its mailbox. -/
  | reading (stage : Reader.Stage)
  /-- Nothing any more. -/
  | ended
  deriving DecidableEq

/-- A machine in a network. -/
structure Node where
  machine : Machine
  mailbox : Mailbox
  /-- The words of a packet that has not been sent. -/
  packet : List Word
  phase : Node.Phase

namespace Node

/-- Executes an instruction and prepares for what it asks for. -/
def execute (node : Node) : Node :=
  let machine := node.machine.step
  match machine.status with
  | .running => { node with machine }
  | .output =>
    let (word, machine) := machine.takeOutput
    { node with machine, packet := node.packet ++ word.toList, phase := .delivering }
  | .awaitingInput => { node with machine, phase := .reading .trying }
  | .halted | .faulted _ => { node with machine, phase := .ended }

/-- Goes on with reading. A word is queued for the instruction that wants it; a node that is told
that no word will come ends. -/
def read (fallback : Option Word) (stage : Reader.Stage) (node : Node) : Node :=
  let (stage, mailbox) := stage.advance fallback node.mailbox
  match stage with
  | .answered (some word) =>
    { node with mailbox, machine := node.machine.push word, phase := .executing }
  | .answered none => { node with mailbox, phase := .ended }
  | .trying => { node with mailbox, phase := .reading .trying }
  | .checking => { node with mailbox, phase := .reading .checking }

/-- The destination and the payload of a complete packet. -/
def completePacket? (arity : Nat) (node : Node) : Option (Word × List Word) :=
  match node.packet with
  | [] => none
  | dest :: payload => if payload.length + 1 = arity then some (dest, payload) else none

/-- Whether the node's next action cannot get it any further: it has ended, or it would try an empty
mailbox that is still open. -/
def isBlocked (node : Node) : Bool :=
  match node.phase with
  | .ended => true
  | .reading .trying => node.mailbox.words.isEmpty && !node.mailbox.closed
  | .executing | .delivering | .reading _ => false

/-- Whether the node has ended, or waits and has done so `threshold` times in a row. -/
def isResting (threshold : Nat) (node : Node) : Bool :=
  node.phase = .ended || node.mailbox.isIdle threshold

end Node

/-- How a network is set up. -/
structure Network.Options where
  /-- Words per packet, the destination included. -/
  arity : Nat
  /-- What a node reads when no word came in time; without it, nodes wait. -/
  fallback : Option Word
  /-- Empty reads in a row after which a node counts as idle. -/
  idleThreshold : Nat
  /-- How each machine is set up. -/
  machine : Config

/-- Machines that exchange packets. -/
structure Network where
  options : Network.Options
  nodes : Array Node
  /-- The packets that have left the network and were not received, in the order in which they did. -/
  external : List Packet
  /-- Whether nodes should end at their next output. -/
  stopping : Bool

namespace Network

/-- A network of nodes about to execute their first instructions. -/
def ofProgram (program : Program) (nodes : Nat) (options : Options) : Network where
  options := options
  nodes := (Array.range nodes).map fun (address : Nat) =>
    { machine := (Machine.ofProgram program options.machine).push address
      mailbox := .empty
      packet := []
      phase := .executing }
  external := []
  stopping := false

/-- The length of a packet, which always has a destination. -/
def arity (net : Network) : Nat :=
  max net.options.arity 1

/-- Changes one node. -/
def modifyNode (net : Network) (i : Nat) (f : Node → Node) : Network :=
  { net with nodes := net.nodes.modify i f }

/-- Appends a block of words to a node's mailbox. -/
def deposit (net : Network) (i : Nat) (words : List Word) : Network :=
  net.modifyNode i fun node => { node with mailbox := node.mailbox.pushAll words }

/-- Routes a packet. A destination inside the network is the address of one of its nodes. -/
def route (net : Network) (packet : Packet) : Network :=
  if 0 ≤ packet.dest ∧ packet.dest.toNat < net.nodes.size then
    net.deposit packet.dest.toNat packet.payload
  else { net with external := net.external ++ [packet] }

/-- The next action of a node. -/
def advance (net : Network) (i : Nat) : Network :=
  match net.nodes[i]? with
  | none => net
  | some node =>
    match node.phase with
    | .ended => net
    | .executing => net.modifyNode i fun _ => node.execute
    | .reading stage => net.modifyNode i fun _ => node.read net.options.fallback stage
    | .delivering =>
      let phase := if net.stopping then .ended else .executing
      match node.completePacket? net.arity with
      | none => net.modifyNode i fun _ => { node with phase }
      | some (dest, payload) =>
        (net.modifyNode i fun _ => { node with packet := [], phase }).route ⟨i, dest, payload⟩

/-! ## The supervisor -/

/-- Sends a block of words to a node, if there is that node. -/
def send (net : Network) (i : Nat) (payload : List Word) : Bool × Network :=
  if i < net.nodes.size then (true, net.deposit i payload) else (false, net)

/-- Takes the first packet that waits outside. -/
def receive (net : Network) : Option Packet × Network :=
  match net.external with
  | [] => (none, net)
  | packet :: external => (some packet, { net with external })

/-- Closes a node's mailbox. -/
def closeMailbox (net : Network) (i : Nat) : Network :=
  net.modifyNode i fun node => { node with mailbox := node.mailbox.close }

/-- Whether every node counts as idle, judged at one moment. -/
def isIdle (net : Network) : Bool :=
  Mailbox.allIdle (net.nodes.toList.map Node.mailbox) net.options.idleThreshold

/-- Tells all nodes to end, and those that wait to wait no longer. -/
def stop (net : Network) : Network :=
  { net with
    stopping := true
    nodes := net.nodes.map fun node => { node with mailbox := node.mailbox.close } }

/-- The fault of the first node that has one. -/
def fault? (net : Network) : Option Fault :=
  net.nodes.toList.findSome? fun node => node.machine.fault?

end Network

end Intcode
