import Mathlib.Data.List.Induction
import Intcode.Proofs.Network.Log

/-!
# What can happen in a network

Whatever happens in a network is a sequence of actions: a node takes its turn, or the supervisor sends
a block of words, receives a packet, closes a mailbox or tells all nodes to end. Any list of actions is
allowed, so what holds after every list holds in every state that a network can come to.
`Network.perform` is the network after some actions, and `Network.log` what happened meanwhile.

## What an action does

An action changes a node in up to three ways: it may be the node's own turn, it may put a block of
words into the node's mailbox, and it may close that mailbox. `getElem?_nodes_act` says this of every
action and every node, a node that sends a packet to itself included. `external_act` says what an
action does to the line to the supervisor.
-/

namespace Intcode.Network

/-- Something that happens in a network. -/
inductive Action where
  /-- A node takes its turn. -/
  | turn (i : Nat)
  /-- The supervisor sends a block of words to a node. -/
  | send (i : Nat) (payload : List Word)
  /-- The supervisor asks for a packet. -/
  | receive
  /-- A mailbox is closed. -/
  | close (i : Nat)
  /-- All nodes are told to end. -/
  | stop
  deriving DecidableEq

/-- The network after an action. -/
def act (net : Network) : Action → Network
  | .turn i => net.advance i
  | .send i payload => (net.send i payload).2
  | .receive => net.receive.2
  | .close i => net.closeMailbox i
  | .stop => net.stop

/-- What happens in an action. -/
def event? (net : Network) : Action → Option Event
  | .turn i =>
    (net.nodes[i]?.bind (Node.event? net.arity net.options.fallback)).map (.node i)
  | .send i payload => if (net.send i payload).1 then some (.sent i payload) else none
  | .receive => net.receive.1.map .received
  | .close _ | .stop => none

/-- The network after some actions. -/
def perform (net : Network) (actions : List Action) : Network :=
  actions.foldl act net

/-- What happens in some actions. -/
def log (net : Network) : List Action → Log
  | [] => []
  | action :: actions => (net.event? action).toList ++ (net.act action).log actions

/-- Whether an action closes the mailbox of node `i`. -/
def Action.closes (i : Nat) : Action → Bool
  | close j => j = i
  | stop => true
  | turn _ | send _ _ | receive => false

/-! ## Logs -/

theorem perform_append (net : Network) (actions₁ actions₂ : List Action) :
    net.perform (actions₁ ++ actions₂) = (net.perform actions₁).perform actions₂ :=
  List.foldl_append

theorem log_append (net : Network) (actions₁ actions₂ : List Action) :
    net.log (actions₁ ++ actions₂) = net.log actions₁ ++ (net.perform actions₁).log actions₂ := by
  induction actions₁ generalizing net with
  | nil => rfl
  | cons action actions₁ ih =>
    show (net.event? action).toList ++ (net.act action).log (actions₁ ++ actions₂) = _
    rw [ih, ← List.append_assoc]
    rfl

@[simp] theorem perform_concat (net : Network) (actions : List Action) (action : Action) :
    net.perform (actions ++ [action]) = (net.perform actions).act action :=
  perform_append net actions [action]

@[simp] theorem log_concat (net : Network) (actions : List Action) (action : Action) :
    net.log (actions ++ [action]) =
      net.log actions ++ ((net.perform actions).event? action).toList := by
  rw [log_append]
  exact congrArg _ (List.append_nil _)

/-! ## What an action does to a node -/

theorem event?_turn {net : Network} {i : Nat} {node : Node} (h : net.nodes[i]? = some node) :
    net.event? (.turn i) = (node.event? net.arity net.options.fallback).map (.node i) := by
  simp only [event?, h, Option.bind_some]

/-- The node after its turn, if an action is that. -/
def turned (net : Network) (action : Action) (i : Nat) (node : Node) : Node :=
  if action = .turn i then node.act net.arity net.options.fallback net.stopping else node

/-- The node with what was put into its mailbox. -/
def deposited (deposit : Option Deposit) (node : Node) : Node :=
  { node with mailbox := deposit.elim node.mailbox (node.mailbox.pushAll ·.payload) }

/-- The node after an action. -/
def change (net : Network) (action : Action) (i : Nat) (node : Node) : Node :=
  let node := deposited ((net.event? action).bind (Event.deposit? i)) (net.turned action i node)
  { node with mailbox := if action.closes i then node.mailbox.close else node.mailbox }

/-- Words that are put into the mailbox stand behind those that were there. -/
@[simp] theorem words_change (net : Network) (action : Action) (i : Nat) (node : Node) :
    (net.change action i node).mailbox.words =
      (net.turned action i node).mailbox.words ++ Log.pushed i (net.event? action).toList := by
  have hpushed : Log.pushed i (net.event? action).toList =
      ((net.event? action).bind (Event.deposit? i)).elim [] Deposit.payload := by
    rw [Log.pushed, Log.deposits]
    rcases net.event? action with _ | event
    · rfl
    · rcases h : event.deposit? i with _ | deposit <;> simp [h]
  rw [hpushed, change]
  rcases (net.event? action).bind (Event.deposit? i) with _ | deposit
  · cases action.closes i <;> simp [deposited, Mailbox.close]
  · cases action.closes i <;> simp [deposited, Mailbox.close, Mailbox.pushAll]

@[simp] theorem closed_change (net : Network) (action : Action) (i : Nat) (node : Node) :
    (net.change action i node).mailbox.closed =
      ((net.turned action i node).mailbox.closed || action.closes i) := by
  rw [change]
  rcases (net.event? action).bind (Event.deposit? i) with _ | deposit
  · cases action.closes i <;> simp [deposited, Mailbox.close]
  · cases action.closes i <;> simp [deposited, Mailbox.close, Mailbox.pushAll]

/-! ## What an action does to the network -/

theorem deposited_none : deposited none = id := rfl

/-- An action that is no event for the node and does not close its mailbox leaves it alone. -/
theorem change_eq_self {net : Network} {action : Action} {i : Nat} (hturn : action ≠ .turn i)
    (hdeposit : (net.event? action).bind (Event.deposit? i) = none)
    (hcloses : action.closes i = false) (node : Node) : net.change action i node = node := by
  rw [change, turned, if_neg hturn, hdeposit, hcloses]
  rfl

/-- A packet that a node sends is carried to where it belongs. -/
def carry (net : Network) (i : Nat) : Option Node.Event → Network
  | some (.routed dest payload) => net.route ⟨i, dest, payload⟩
  | _ => net

theorem getElem?_modifyNode (net : Network) (i j : Nat) (f : Node → Node) :
    (net.modifyNode i f).nodes[j]? =
      net.nodes[j]?.map fun node => if i = j then f node else node := by
  rw [modifyNode, Array.getElem?_modify]
  split
  · rfl
  · exact Option.map_id_apply.symm

/-- Replacing a node by itself changes nothing. -/
theorem modifyNode_self {net : Network} {i : Nat} {node : Node} (h : net.nodes[i]? = some node) :
    net.modifyNode i (fun _ => node) = net := by
  have hnodes : net.nodes.modify i (fun _ => node) = net.nodes := by
    refine Array.ext_getElem? fun j => ?_
    rw [Array.getElem?_modify]
    split
    · next hij =>
      subst hij
      rw [h]
      rfl
    · rfl
  rw [modifyNode, hnodes]

/-- In its turn a node changes, and then its packet is carried. -/
theorem advance_eq {net : Network} {i : Nat} {node : Node} (h : net.nodes[i]? = some node) :
    net.advance i =
      (net.modifyNode i fun _ => node.act net.arity net.options.fallback net.stopping).carry i
        (node.event? net.arity net.options.fallback) := by
  rcases hphase : node.phase with _ | _ | stage | _
  case executing => simp only [advance, h, hphase, Node.act, Node.event?, carry]
  case delivering =>
    simp only [advance, h, hphase, Node.act, Node.event?]
    rcases hpacket : node.completePacket? net.arity with _ | ⟨dest, payload⟩ <;>
      simp only [carry, Node.afterDelivery]
  case reading =>
    simp only [advance, h, hphase, Node.act, Node.event?]
    rcases stage with _ | _ | word
    · rcases node.mailbox.words with _ | ⟨word, words⟩ <;> rfl
    · rcases node.mailbox.closed with _ | _
      · rcases net.options.fallback with _ | word <;> rfl
      · rfl
    · rfl
  case ended =>
    simp only [advance, h, hphase, Node.act, Node.event?, carry]
    exact (modifyNode_self h).symm

/-- A packet is put into the mailbox whose address is its destination, and into no other. -/
theorem getElem?_nodes_route (net : Network) (packet : Packet) (i : Nat) :
    (net.route packet).nodes[i]? =
      net.nodes[i]?.map
        (deposited (if packet.dest = i then some ⟨packet.sender, packet.payload⟩ else none)) := by
  rw [route]
  split
  · next hinside =>
    rw [deposit, getElem?_modifyNode]
    refine congrArg (Option.map · _) (funext fun node => ?_)
    by_cases hi : packet.dest.toNat = i
    · have hdest : packet.dest = i := by
        rw [← hi]
        exact (Int.toNat_of_nonneg hinside.1).symm
      rw [if_pos hi, if_pos hdest]
      rfl
    · have hdest : packet.dest ≠ i := by
        intro heq
        rw [heq] at hi
        exact hi rfl
      rw [if_neg hi, if_neg hdest]
      rfl
  · next houtside =>
    rcases hnode : net.nodes[i]? with _ | node
    · rfl
    · -- the address of a node that exists is not outside
      have hsize : i < net.nodes.size := (Array.getElem?_eq_some_iff.mp hnode).1
      have hdest : packet.dest ≠ i := by
        intro heq
        rw [heq] at houtside
        exact houtside ⟨Int.natCast_nonneg i, hsize⟩
      rw [Option.map_some, if_neg hdest]
      rfl

theorem getElem?_nodes_carry (net : Network) (sender : Nat) (event : Option Node.Event) (i : Nat) :
    (net.carry sender event).nodes[i]? =
      net.nodes[i]?.map (deposited ((event.map (.node sender)).bind (Event.deposit? i))) := by
  have hnone : net.nodes[i]? = net.nodes[i]?.map (deposited none) := by
    rw [deposited_none, Option.map_id_apply]
  rcases event with _ | event
  · exact hnone
  · cases event with
    | routed dest payload => exact getElem?_nodes_route net ⟨sender, dest, payload⟩ i
    | _ => exact hnone

theorem getElem?_nodes_advance (net : Network) (i j : Nat) :
    (net.advance i).nodes[j]? = net.nodes[j]?.map (net.change (.turn i) j) := by
  rcases hnode : net.nodes[i]? with _ | node
  · -- there is no such node, and nothing happens
    have hadvance : net.advance i = net := by simp only [advance, hnode]
    have hevent : net.event? (.turn i) = none := by
      simp only [event?, hnode]
      rfl
    rw [hadvance]
    rcases hj : net.nodes[j]? with _ | node
    · rfl
    · have hturn : Action.turn i ≠ .turn j := by
        rintro ⟨⟩
        rw [hnode] at hj
        cases hj
      rw [Option.map_some, change_eq_self hturn (by rw [hevent]; rfl) rfl]
  · rw [advance_eq hnode, getElem?_nodes_carry, ← event?_turn hnode, getElem?_modifyNode,
      Option.map_map]
    rcases hj : net.nodes[j]? with _ | node'
    · rfl
    · rw [Option.map_some, Option.map_some, Function.comp_apply, change, turned]
      by_cases hij : i = j
      · -- its packet is carried after it has changed, so what it sends itself stands last
        subst hij
        rw [hnode] at hj
        cases hj
        rw [if_pos rfl, if_pos rfl]
        rfl
      · have hturn : Action.turn i ≠ .turn j := by
          rintro ⟨⟩
          exact hij rfl
        rw [if_neg hij, if_neg hturn]
        rfl

theorem getElem?_nodes_send (net : Network) (i : Nat) (payload : List Word) (j : Nat) :
    (net.send i payload).2.nodes[j]? = net.nodes[j]?.map (net.change (.send i payload) j) := by
  have hturn : Action.send i payload ≠ .turn j := by simp
  by_cases hi : i < net.nodes.size
  · have hevent : net.event? (.send i payload) = some (.sent i payload) := by
      rw [event?, send, if_pos hi]
      rfl
    rw [send, if_pos hi, deposit, getElem?_modifyNode]
    refine congrArg (Option.map · _) (funext fun node => ?_)
    by_cases hij : i = j
    · rw [if_pos hij, change, hevent, Option.bind_some, Event.deposit?, if_pos hij]
      rfl
    · have hdeposit : (Event.sent i payload).deposit? j = none := if_neg hij
      rw [if_neg hij, change_eq_self hturn (by rw [hevent]; exact hdeposit) rfl]
  · have hevent : net.event? (.send i payload) = none := by
      rw [event?, send, if_neg hi]
      rfl
    rw [send, if_neg hi]
    rcases net.nodes[j]? with _ | node
    · rfl
    · rw [Option.map_some, change_eq_self hturn (by rw [hevent]; rfl) rfl]

theorem getElem?_nodes_receive (net : Network) (i : Nat) :
    net.receive.2.nodes[i]? = net.nodes[i]?.map (net.change .receive i) := by
  have hturn : Action.receive ≠ .turn i := by simp
  have hnodes : net.receive.2.nodes = net.nodes := by
    rw [receive]
    split <;> rfl
  have hdeposit : (net.event? .receive).bind (Event.deposit? i) = none := by
    rw [event?]
    rcases net.receive.1 with _ | packet <;> rfl
  rw [hnodes]
  rcases net.nodes[i]? with _ | node
  · rfl
  · rw [Option.map_some, change_eq_self hturn hdeposit rfl]

theorem getElem?_nodes_closeMailbox (net : Network) (i j : Nat) :
    (net.closeMailbox i).nodes[j]? = net.nodes[j]?.map (net.change (.close i) j) := by
  have hturn : Action.close i ≠ .turn j := by simp
  rw [closeMailbox, getElem?_modifyNode]
  refine congrArg (Option.map · _) (funext fun node => ?_)
  by_cases hij : i = j
  · have hcloses : (Action.close i).closes j = true := decide_eq_true hij
    rw [if_pos hij, change, hcloses]
    rfl
  · have hcloses : (Action.close i).closes j = false := decide_eq_false hij
    rw [if_neg hij, change_eq_self hturn rfl hcloses]

/-- What an action does to every node. -/
theorem getElem?_nodes_act (net : Network) (action : Action) (i : Nat) :
    (net.act action).nodes[i]? = net.nodes[i]?.map (net.change action i) := by
  cases action with
  | turn j => exact getElem?_nodes_advance net j i
  | send j payload => exact getElem?_nodes_send net j payload i
  | receive => exact getElem?_nodes_receive net i
  | close j => exact getElem?_nodes_closeMailbox net j i
  | stop =>
    rw [act, stop, Array.getElem?_map]
    rfl

theorem size_nodes_act (net : Network) (action : Action) :
    (net.act action).nodes.size = net.nodes.size := by
  have hle (i : Nat) : (net.act action).nodes.size ≤ i ↔ net.nodes.size ≤ i := by
    rw [← Array.getElem?_eq_none_iff, getElem?_nodes_act, Option.map_eq_none_iff,
      Array.getElem?_eq_none_iff]
  exact Nat.le_antisymm ((hle _).mpr (Nat.le_refl _)) ((hle _).mp (Nat.le_refl _))

theorem exists_carry_eq (net : Network) (i : Nat) (event : Option Node.Event) :
    ∃ nodes external, net.carry i event = { net with nodes, external } := by
  unfold carry
  split
  · rw [route]
    split
    · exact ⟨_, _, rfl⟩
    · exact ⟨_, _, rfl⟩
  · exact ⟨_, _, rfl⟩

/-- Nothing but the nodes and the line to the supervisor changes, until the nodes are told to end. -/
theorem exists_act_eq (net : Network) {action : Action} (h : action ≠ .stop) :
    ∃ nodes external, net.act action = { net with nodes, external } := by
  cases action with
  | turn i =>
    rcases hnode : net.nodes[i]? with _ | node
    · exact ⟨net.nodes, net.external, by simp only [act, advance, hnode]⟩
    · rw [act, advance_eq hnode]
      exact exists_carry_eq _ _ _
  | send i payload =>
    rw [act, send]
    split
    · exact ⟨_, _, rfl⟩
    · exact ⟨_, _, rfl⟩
  | receive =>
    rw [act, receive]
    split
    · exact ⟨_, _, rfl⟩
    · exact ⟨_, _, rfl⟩
  | close i => exact ⟨_, _, rfl⟩
  | stop => exact absurd rfl h

theorem options_act (net : Network) (action : Action) : (net.act action).options = net.options := by
  by_cases h : action = .stop
  · rw [h]
    rfl
  · obtain ⟨nodes, external, hact⟩ := exists_act_eq net h
    rw [hact]

/-- Only one action tells the nodes to end. -/
theorem stopping_act {net : Network} {action : Action} (h : action ≠ .stop) :
    (net.act action).stopping = net.stopping := by
  obtain ⟨nodes, external, hact⟩ := exists_act_eq net h
  rw [hact]

/-- A node does nothing in actions that are not its turn. -/
theorem bind_of?_event?_eq_none {net : Network} {action : Action} {i : Nat}
    (h : action = .turn i → net.nodes[i]? = none) :
    (net.event? action).bind (Event.of? i) = none := by
  cases action with
  | turn j =>
    by_cases hij : j = i
    · subst hij
      rw [event?, h rfl]
      rfl
    · rw [event?]
      rcases net.nodes[j]?.bind (Node.event? net.arity net.options.fallback) with _ | event
      · rfl
      · exact if_neg hij
  | send j payload =>
    rw [event?]
    split <;> rfl
  | receive =>
    rw [event?]
    rcases net.receive.1 with _ | packet <;> rfl
  | close j => rfl
  | stop => rfl

/-- There is nothing in the log of a node that is not there. -/
theorem of_log_eq_nil {net : Network} {i : Nat} (h : net.nodes.size ≤ i) (actions : List Action) :
    (net.log actions).of i = [] := by
  induction actions generalizing net with
  | nil => rfl
  | cons action actions ih =>
    rw [log, Log.of_append, Log.of_toList, ih (by rwa [size_nodes_act]),
      bind_of?_event?_eq_none fun _ => Array.getElem?_eq_none h]
    rfl

/-- In every action, every node takes a turn or idles. -/
theorem turn_turned {net : Network} {i : Nat} {node : Node} (hnode : net.nodes[i]? = some node)
    (hanswered : ∀ word, node.phase ≠ .reading (.answered word)) (action : Action) :
    Node.Turn net.arity net.options.fallback net.stopping node
      ((net.event? action).bind (Event.of? i)) (net.turned action i node) := by
  by_cases hturn : action = .turn i
  · have hevent : (net.event? action).bind (Event.of? i) =
        node.event? net.arity net.options.fallback := by
      subst hturn
      rw [event?_turn hnode]
      rcases node.event? net.arity net.options.fallback with _ | event
      · rfl
      · exact if_pos rfl
    rw [hevent, turned, if_pos hturn]
    exact Node.turn_act node hanswered
  · rw [bind_of?_event?_eq_none fun heq => absurd heq hturn, turned, if_neg hturn]
    exact .idle

/-! ## What an action does to the line to the supervisor -/

/-- A packet for a destination outside goes behind those that are on their way. -/
theorem external_route (net : Network) (packet : Packet) :
    (net.route packet).external =
      net.external ++ if outside net.nodes.size packet.dest then [packet] else [] := by
  rw [route]
  split
  · next hinside =>
    have hlt : packet.dest < (net.nodes.size : Word) := (Int.toNat_lt hinside.1).mp hinside.2
    have hdest : outside net.nodes.size packet.dest = false :=
      decide_eq_false fun h => h.elim (Int.not_lt.mpr hinside.1) (Int.not_le.mpr hlt)
    rw [hdest]
    exact (List.append_nil _).symm
  · next hinside =>
    have hdest : outside net.nodes.size packet.dest = true := by
      refine decide_eq_true ?_
      by_cases hneg : packet.dest < 0
      · exact Or.inl hneg
      · have hnonneg : 0 ≤ packet.dest := Int.not_lt.mp hneg
        refine Or.inr (Int.not_lt.mp fun hlt => hinside ⟨hnonneg, ?_⟩)
        exact (Int.toNat_lt hnonneg).mpr hlt
    rw [hdest]
    rfl

theorem external_carry (net : Network) (i : Nat) (event : Option Node.Event) :
    (net.carry i event).external =
      net.external ++ Log.departed net.nodes.size (event.map (.node i)).toList := by
  have hnone : net.external = net.external ++ [] := (List.append_nil _).symm
  rcases event with _ | event
  · exact hnone
  · cases event with
    | routed dest payload =>
      rw [carry, external_route]
      show _ = _ ++ List.filterMap _ [Event.node i (.routed dest payload)]
      rw [List.filterMap_cons, Event.departed?]
      split <;> rfl
    | _ => exact hnone

/-- Packets that are received or on their way are those that were on their way and those that leave. -/
theorem external_act (net : Network) (action : Action) :
    Log.received (net.event? action).toList ++ (net.act action).external =
      net.external ++ Log.departed net.nodes.size (net.event? action).toList := by
  cases action with
  | turn i =>
    rcases hnode : net.nodes[i]? with _ | node
    · simp [act, advance, event?, hnode, Log.received, Log.departed]
    · have hreceived : Log.received (net.event? (.turn i)).toList = [] := by
        rw [event?_turn hnode]
        rcases node.event? net.arity net.options.fallback with _ | event <;> rfl
      have hsize (f : Node → Node) : (net.modifyNode i f).nodes.size = net.nodes.size :=
        Array.size_modify
      rw [hreceived, List.nil_append, event?_turn hnode, act, advance_eq hnode, external_carry,
        hsize]
      rfl
  | send i payload =>
    rw [act, event?, send]
    split <;> exact (List.append_nil _).symm
  | receive =>
    rw [act, event?, receive]
    rcases hexternal : net.external with _ | ⟨packet, external⟩
    · simp [hexternal, Log.received, Log.departed]
    · simp [Log.received, Log.departed, Event.received?, Event.departed?]
  | close i => exact (List.append_nil _).symm
  | stop => exact (List.append_nil _).symm

/-! ## Any number of actions -/

theorem size_nodes_perform (net : Network) (actions : List Action) :
    (net.perform actions).nodes.size = net.nodes.size := by
  induction actions generalizing net with
  | nil => rfl
  | cons action actions ih => exact (ih _).trans (size_nodes_act net action)

theorem options_perform (net : Network) (actions : List Action) :
    (net.perform actions).options = net.options := by
  induction actions generalizing net with
  | nil => rfl
  | cons action actions ih => exact (ih _).trans (options_act net action)

theorem arity_perform (net : Network) (actions : List Action) :
    (net.perform actions).arity = net.arity := by
  rw [arity, options_perform, arity]

/-- What holds of every node and its log at the start, and is kept by every action of some kind, holds
after any actions of that kind. -/
theorem perform_induction {start : Network} (Allowed : Action → Prop) (I : Nat → Node → Log → Prop)
    (hstart : ∀ (i : Nat) (node : Node), start.nodes[i]? = some node → I i node [])
    (hact : ∀ actions : List Action, (∀ action ∈ actions, Allowed action) →
      ∀ action, Allowed action → ∀ (i : Nat) (node : Node),
        (start.perform actions).nodes[i]? = some node → I i node (start.log actions) →
          I i ((start.perform actions).change action i node)
            (start.log actions ++ ((start.perform actions).event? action).toList))
    {actions : List Action} (hallowed : ∀ action ∈ actions, Allowed action) {i : Nat} {node : Node}
    (hnode : (start.perform actions).nodes[i]? = some node) : I i node (start.log actions) := by
  -- on the last action, since the log of the earlier ones is that of the state before it
  induction actions using List.reverseRecOn generalizing node with
  | nil => exact hstart i node hnode
  | append_singleton actions action ih =>
    have hinit : ∀ action ∈ actions, Allowed action :=
      fun action haction => hallowed action (List.mem_append_left _ haction)
    rw [perform_concat, getElem?_nodes_act] at hnode
    obtain ⟨before, hbefore, rfl⟩ := Option.map_eq_some_iff.mp hnode
    rw [log_concat]
    exact hact actions hinit action (hallowed action (by simp)) i before hbefore
      (ih hinit hbefore)

end Intcode.Network
