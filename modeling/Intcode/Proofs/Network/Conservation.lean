import Intcode.Proofs.Network.History

/-!
# Routing loses nothing, doubles nothing and tears nothing

The words that a node puts out end up in packets, or wait for one to become complete. The packets end
up in mailboxes or outside, and what went into a mailbox has been taken from it or is there still.
This module states these balances between the state of a network and its log, for every program, every
number of nodes, every setup and every sequence of actions.

## Shape of the proof

All that concerns one node is gathered in `Node.Balanced`, a relation between the node, what it has
done, and the words that were put into its mailbox. A turn preserves it, and so does what others do to
the mailbox; by induction it holds after any actions (`balanced_perform`). Packets on the line to the
supervisor are balanced in the same way (`external_perform`).
-/

namespace Intcode

namespace Node

/-- A node about to execute its first instruction, with its own address queued. -/
def boot (program : Program) (config : Config) (address : Nat) : Node where
  machine := (Machine.ofProgram program config).push address
  mailbox := .empty
  packet := []
  phase := .executing

/-- What node `i` holds agrees with what it has done since it was `start` and with the words that were
put into its mailbox meanwhile. -/
structure Balanced (arity i : Nat) (node start : Node) (events : List Event) (pushed : List Word) :
    Prop where
  regular : node.Regular arity
  machine_eq : node.machine = (events.foldl Node.follow start).machine
  packet_eq : node.packet = (events.foldl Node.follow start).packet
  output_eq : events.flatMap Event.output =
    (events.filterMap (Event.packet? i)).flatMap Packet.words ++ node.packet
  length_words : ∀ packet ∈ events.filterMap (Event.packet? i), packet.words.length = arity
  taken_eq : events.filterMap Event.taken? ++ node.mailbox.words = pushed

variable {arity i : Nat} {fallback : Option Word} {stopping : Bool} {start node node' : Node}
  {events : List Event} {pushed : List Word}

/-- Nothing has happened yet. -/
theorem balanced_boot (harity : 0 < arity) (program : Program) (config : Config) (address : Nat) :
    Balanced arity i (boot program config address) (boot program config address) [] [] where
  regular := ⟨Nat.zero_le arity, fun _ => harity, by simp [boot]⟩
  machine_eq := rfl
  packet_eq := rfl
  output_eq := rfl
  length_words := by simp
  taken_eq := rfl

/-- A turn keeps the balance. -/
theorem Balanced.turn {event : Option Event} (harity : 0 < arity)
    (h : Balanced arity i node start events pushed)
    (hturn : Turn arity fallback stopping node event node') :
    Balanced arity i node' start (events ++ event.toList) pushed := by
  obtain ⟨hmachine, hpacket⟩ := hturn.machine_packet_eq
  obtain ⟨hmachine', hpacket'⟩ := follow_congr h.machine_eq h.packet_eq event.toList
  refine ⟨hturn.regular harity h.regular, ?_, ?_, ?_, ?_, ?_⟩
  · rw [hmachine, hmachine', List.foldl_append]
  · rw [hpacket, hpacket', List.foldl_append]
  · rw [List.flatMap_append, List.filterMap_append, List.flatMap_append, h.output_eq,
      List.append_assoc, hturn.packet_eq i, List.append_assoc]
  · intro packet hmem
    rw [List.filterMap_append, List.mem_append] at hmem
    rcases hmem with hmem | hmem
    · exact h.length_words packet hmem
    · exact hturn.length_words i packet hmem
  · rw [List.filterMap_append, List.append_assoc, ← hturn.words_eq, h.taken_eq]

/-- What is done to the mailbox from outside keeps the balance. -/
theorem Balanced.mailbox {ws : List Word} (h : Balanced arity i node start events pushed)
    {mailbox : Mailbox} (hwords : mailbox.words = node.mailbox.words ++ ws) :
    Balanced arity i { node with mailbox } start events (pushed ++ ws) where
  regular := ⟨h.regular.length_packet_le, h.regular.length_packet_lt, h.regular.not_answered⟩
  machine_eq := h.machine_eq
  packet_eq := h.packet_eq
  output_eq := h.output_eq
  length_words := h.length_words
  taken_eq := by rw [hwords, ← List.append_assoc, h.taken_eq]

end Node

namespace Network

/-! ## Balances of a network -/

theorem getElem?_nodes_ofProgram (program : Program) (n : Nat) (options : Options) (i : Nat) :
    (ofProgram program n options).nodes[i]? =
      if i < n then some (.boot program options.machine i) else none := by
  rw [ofProgram, Array.getElem?_map]
  split
  · next hi =>
    rw [Array.getElem?_range, if_pos hi]
    rfl
  · next hi =>
    rw [Array.getElem?_range, if_neg hi]
    rfl

theorem size_nodes_ofProgram (program : Program) (n : Nat) (options : Options) :
    (ofProgram program n options).nodes.size = n := by
  rw [ofProgram, Array.size_map, Array.size_range]

theorem arity_pos (net : Network) : 0 < net.arity :=
  Nat.le_max_right _ _

/-- An action keeps the balance of every node. -/
theorem balanced_change {net : Network} {i : Nat} {start node : Node} {log : Log}
    (hnode : net.nodes[i]? = some node)
    (h : node.Balanced net.arity i start (log.of i) (log.pushed i)) (action : Action) :
    (net.change action i node).Balanced net.arity i start
      (Log.of i (log ++ (net.event? action).toList))
      (Log.pushed i (log ++ (net.event? action).toList)) := by
  have hturned := h.turn net.arity_pos (turn_turned hnode h.regular.not_answered action)
  rw [Log.of_append, Log.pushed_append, Log.of_toList]
  exact hturned.mailbox (words_change net action i node)

variable {program : Program} {n : Nat} {options : Options} {start : Network}

/-- After any actions, what every node holds agrees with the log. -/
theorem balanced_perform (hstart : start = ofProgram program n options) {actions : List Action}
    {i : Nat} {node : Node} (hnode : (start.perform actions).nodes[i]? = some node) :
    node.Balanced start.arity i (.boot program options.machine i) ((start.log actions).of i)
      ((start.log actions).pushed i) := by
  refine perform_induction (fun _ => True)
    (fun i node log => node.Balanced start.arity i (.boot program options.machine i) (log.of i)
      (log.pushed i)) ?_ ?_ (fun _ _ => trivial) hnode
  · intro i node hnode
    rw [hstart, getElem?_nodes_ofProgram] at hnode
    split at hnode
    · cases hnode
      exact Node.balanced_boot start.arity_pos program options.machine i
    · cases hnode
  · intro actions _ action _ i node hnode hbalanced
    rw [← arity_perform start actions] at hbalanced ⊢
    exact balanced_change hnode hbalanced action

/-- After any actions, the packets that were received and those on their way are those that left. -/
theorem external_perform (hstart : start = ofProgram program n options) (actions : List Action) :
    (start.log actions).received ++ (start.perform actions).external =
      (start.log actions).departed start.nodes.size := by
  induction actions using List.reverseRecOn with
  | nil =>
    subst hstart
    rfl
  | append_singleton actions action ih =>
    have hact := external_act (start.perform actions) action
    rw [size_nodes_perform] at hact
    rw [log_concat, perform_concat, Log.received_append, Log.departed_append, List.append_assoc,
      hact, ← List.append_assoc, ih]

/-! ## Blocks and packets by sender -/

/-- The blocks that a node has put into a mailbox are the payloads of its packets for it. -/
theorem Log.depositsFrom_some (j i : Nat) (log : Log) :
    log.depositsFrom (some j) i =
      ((log.packets j).filter fun packet => packet.dest = (i : Word)).map Packet.payload := by
  induction log with
  | nil => rfl
  | cons event log ih =>
    rw [← List.singleton_append, depositsFrom_append, packets_append, List.filter_append,
      List.map_append, ih]
    refine congrArg (· ++ _) ?_
    simp only [depositsFrom, deposits, packets, of, List.filterMap_cons, List.filterMap_nil]
    rcases event with ⟨k, _ | _ | ⟨dest, payload⟩ | _ | _⟩ | ⟨k, payload⟩ | packet
    case node.routed =>
      by_cases hk : k = j <;> by_cases hdest : dest = i <;>
        simp [Event.deposit?, Event.of?, Node.Event.packet?, hk, hdest]
    case sent =>
      by_cases hk : k = i <;> simp [Event.deposit?, Event.of?, hk]
    case received => rfl
    all_goals
      by_cases hk : k = j <;> simp [Event.deposit?, Event.of?, Node.Event.packet?, hk]

/-- The packets of one node that left are its packets for destinations outside. -/
theorem Log.filter_departed (n j : Nat) (log : Log) :
    (log.departed n).filter (fun packet => packet.sender = j) =
      (log.packets j).filter fun packet => outside n packet.dest := by
  induction log with
  | nil => rfl
  | cons event log ih =>
    rw [← List.singleton_append, departed_append, packets_append, List.filter_append,
      List.filter_append, ih]
    refine congrArg (· ++ _) ?_
    simp only [departed, packets, of, List.filterMap_cons, List.filterMap_nil]
    rcases event with ⟨k, _ | _ | ⟨dest, payload⟩ | _ | _⟩ | ⟨k, payload⟩ | packet
    case node.routed =>
      by_cases hk : k = j <;> cases hdest : outside n dest <;>
        simp [Event.departed?, Event.of?, Node.Event.packet?, hk, hdest]
    case sent => rfl
    case received => rfl
    all_goals
      by_cases hk : k = j <;> simp [Event.departed?, Event.of?, Node.Event.packet?, hk]

/-- The block that the supervisor sends to node `i`. -/
def Action.sent? (i : Nat) : Action → Option (List Word)
  | send j payload => if j = i then some payload else none
  | turn _ | receive | close _ | stop => none

theorem depositsFrom_none_event? {net : Network} {i : Nat} (hi : i < net.nodes.size)
    (action : Action) :
    Log.depositsFrom none i (net.event? action).toList = (action.sent? i).toList := by
  cases action with
  | turn j =>
    rw [event?]
    rcases net.nodes[j]?.bind (Node.event? net.arity net.options.fallback) with _ | event
    · rfl
    · rcases event with _ | _ | ⟨dest, payload⟩ | _ | _
      case routed =>
        by_cases hdest : dest = i <;>
          simp [Log.depositsFrom, Log.deposits, Event.deposit?, Action.sent?, hdest]
      all_goals rfl
  | send j payload =>
    rw [event?, send]
    by_cases hj : j = i
    · -- the node exists, so the block is not refused
      subst hj
      simp [Log.depositsFrom, Log.deposits, Event.deposit?, Action.sent?, hi]
    · split <;> simp [Log.depositsFrom, Log.deposits, Event.deposit?, Action.sent?, hj]
  | receive =>
    rw [event?]
    rcases net.receive.1 with _ | packet <;> rfl
  | close j => rfl
  | stop => rfl

/-- The blocks that the supervisor has put into a mailbox are those that it sent. -/
theorem depositsFrom_none {net : Network} {i : Nat} (hi : i < net.nodes.size)
    (actions : List Action) :
    (net.log actions).depositsFrom none i = actions.filterMap (Action.sent? i) := by
  induction actions generalizing net with
  | nil => rfl
  | cons action actions ih =>
    rw [log, Log.depositsFrom_append, ih (by rwa [size_nodes_act]), depositsFrom_none_event? hi,
      List.filterMap_cons]
    rcases action.sent? i with _ | payload <;> rfl

/-! ## The balances together -/

/-- **Routing loses nothing, doubles nothing and tears nothing.** After any actions, whatever the
program, the number of nodes and their setup, the following holds for every node. Its machine has
executed what it is said to have executed, with the words that it is said to have taken. The words that
it put out are those of the packets that it sent, all complete, and behind them those that wait, fewer
than a packet has unless it is about to send one. The words that it took from its mailbox and those
that are left there are the blocks that were put in, which are, for each sender in its order, the
payloads of a node's packets for it and what the supervisor sent to it. And the packets that were
received and those that wait outside are the packets that left, which are, for each sender in its
order, its packets for destinations outside. -/
theorem routing_balances (program : Program) (n : Nat) (options : Options) (actions : List Action) :
    let start := ofProgram program n options
    let net := start.perform actions
    let log := start.log actions
    let arity := max options.arity 1
    net.nodes.size = n ∧
    (∀ i node, net.nodes[i]? = some node →
      node.machine = ((log.of i).foldl Node.follow (.boot program options.machine i)).machine ∧
      log.outputs i = (log.packets i).flatMap Packet.words ++ node.packet ∧
      (∀ packet ∈ log.packets i, packet.words.length = arity) ∧
      node.packet.length ≤ arity ∧
      (node.phase ≠ .delivering → node.packet.length < arity) ∧
      log.taken i ++ node.mailbox.words = (log.deposits i).flatMap Deposit.payload ∧
      (∀ j, log.depositsFrom (some j) i =
        ((log.packets j).filter fun packet => packet.dest = (i : Word)).map Packet.payload) ∧
      log.depositsFrom none i = actions.filterMap (Action.sent? i)) ∧
    log.received ++ net.external = log.departed n ∧
    ∀ j, (log.departed n).filter (fun packet => packet.sender = j) =
      (log.packets j).filter fun packet => outside n packet.dest := by
  intro start net log arity
  have hstart : start.nodes.size = n := size_nodes_ofProgram program n options
  have hsize : net.nodes.size = n := (size_nodes_perform start actions).trans hstart
  have hexternal : log.received ++ net.external = log.departed start.nodes.size :=
    external_perform rfl actions
  rw [hstart] at hexternal
  refine ⟨hsize, ?_, hexternal, log.filter_departed n⟩
  intro i node hnode
  have hbalanced := balanced_perform rfl hnode
  have hi : i < start.nodes.size := by
    rw [hstart, ← hsize]
    exact (Array.getElem?_eq_some_iff.mp hnode).1
  exact ⟨hbalanced.machine_eq, hbalanced.output_eq, hbalanced.length_words,
    hbalanced.regular.length_packet_le, hbalanced.regular.length_packet_lt, hbalanced.taken_eq,
    fun j => log.depositsFrom_some j i, depositsFrom_none hi actions⟩

/-- A node that sends one packet to itself and one outside, and reads what it was sent, while the
supervisor sends it two more words. -/
theorem routing_balances_alone :
    let start := ofProgram ⟨[104, 0, 104, 7, 104, 5, 104, 8, 3, 100, 3, 101, 99]⟩ 1 ⟨2, none, 1, {}⟩
    let actions := List.replicate 8 (.turn 0) ++ .send 0 [9, 6] :: .receive ::
      List.replicate 5 (.turn 0)
    let net := start.perform actions
    let log := start.log actions
    ∃ node, net.nodes[0]? = some node ∧
      log.taken 0 ++ node.mailbox.words = (log.deposits 0).flatMap Deposit.payload ∧
      log.taken 0 = [7] ∧ log.deposits 0 = [⟨some 0, [7]⟩, ⟨none, [9, 6]⟩] ∧
      log.outputs 0 = (log.packets 0).flatMap Packet.words ++ node.packet ∧
      log.packets 0 = [⟨0, 0, [7]⟩, ⟨0, 5, [8]⟩] ∧
      log.received ++ net.external = log.departed 1 ∧ log.received = [⟨0, 5, [8]⟩] := by
  intro start actions net log
  obtain ⟨hsize, hnodes, hexternal, -⟩ := routing_balances
    ⟨[104, 0, 104, 7, 104, 5, 104, 8, 3, 100, 3, 101, 99]⟩ 1 ⟨2, none, 1, {}⟩ actions
  have hzero : 0 < net.nodes.size := by
    rw [hsize]
    exact Nat.zero_lt_one
  have hnode : net.nodes[0]? = some net.nodes[0] := Array.getElem?_eq_getElem hzero
  obtain ⟨-, houtput, -, -, -, htaken, -, -⟩ := hnodes 0 net.nodes[0] hnode
  exact ⟨net.nodes[0], hnode, htaken, by decide +kernel, by decide +kernel, houtput,
    by decide +kernel, hexternal, by decide +kernel⟩

end Network

end Intcode
