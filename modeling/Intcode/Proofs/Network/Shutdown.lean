import Intcode.Network.Schedule
import Intcode.Proofs.Network.Conservation
import Intcode.Proofs.Network.Replay

/-!
# Shutting down a network that has nothing left to do

A network is shut down by telling all nodes to end and waiting until they have; the answer is the fault
of the first node that has one. How the nodes take their turns meanwhile is open: `ShutsDown` allows
every order.

When nothing was left to do before, the nodes that wait give up, within two turns each, and no machine
executes anything. So shutting down succeeds, in every order with the fault that was there before
(`Rests.shutsDown_iff`), and that is also the answer of `Network.shutdown`, which takes one order
(`Rests.fault?_shutdown`).
-/

namespace Intcode

namespace Node

/-- The node has nothing left to do. -/
structure Rests (node : Node) : Prop where
  stalled : node.isStalled = true
  not_answered : ∀ word, node.phase ≠ .reading (.answered word)

/-- How many turns it takes such a node to give up, once its mailbox is closed. -/
def patience (node : Node) : Nat :=
  match node.phase with
  | .reading .trying => 2
  | .reading _ => 1
  | .executing | .delivering | .ended => 0

theorem patience_le_two (node : Node) : node.patience ≤ 2 := by
  rw [patience]
  split <;> decide

theorem Rests.phase_cases {node : Node} (h : node.Rests) :
    node.phase = .ended ∨
      node.mailbox.words = [] ∧ (node.phase = .reading .trying ∨ node.phase = .reading .checking) := by
  rcases isStalled_iff.mp h.stalled with hphase | ⟨hwords, stage, hphase⟩
  · exact Or.inl hphase
  · refine Or.inr ⟨hwords, ?_⟩
    rcases stage with _ | _ | word
    · exact Or.inl hphase
    · exact Or.inr hphase
    · exact absurd hphase (h.not_answered word)

theorem Rests.ended_of_patience_eq_zero {node : Node} (h : node.Rests)
    (hpatience : node.patience = 0) : node.phase = .ended := by
  rcases h.phase_cases with hphase | ⟨-, hphase | hphase⟩
  · exact hphase
  · rw [patience, hphase] at hpatience
    cases hpatience
  · rw [patience, hphase] at hpatience
    cases hpatience

/-- In its turn, such a node does nothing but come closer to giving up. -/
theorem Rests.act {node : Node} (h : node.Rests) (arity : Nat) (stopping : Bool) :
    node.event? arity none = none ∧ (node.act arity none stopping).Rests ∧
      (node.act arity none stopping).machine = node.machine ∧
      (node.mailbox.closed = true →
        (node.act arity none stopping).patience = node.patience - 1) := by
  rcases h.phase_cases with hphase | ⟨hwords, hphase | hphase⟩
  · have hact : node.act arity none stopping = node := by rw [Node.act, hphase]
    rw [hact]
    refine ⟨by rw [event?, hphase], h, rfl, fun _ => ?_⟩
    simp only [patience, hphase]
  · have hact : node.act arity none stopping =
        { node with mailbox := node.mailbox.take.2, phase := .reading .checking } := by
      rw [Node.act, hphase]
      simp only [read, Reader.Stage.advance, Mailbox.take, hwords]
    have htake : node.mailbox.take.2.words = [] := by simp [Mailbox.take, hwords]
    have hevent : node.event? arity none = none := by
      simp only [event?, hphase, hwords, List.head?_nil, Option.map_none]
    rw [hact]
    refine ⟨hevent, ⟨isStalled_iff.mpr (Or.inr ⟨htake, _, rfl⟩), by simp⟩, rfl, fun _ => ?_⟩
    simp only [patience, hphase]
  · have hevent : node.event? arity none = none := by
      simp only [event?, hphase, Option.map_none, ite_self]
    cases hclosed : node.mailbox.closed with
    | false =>
      have hact : node.act arity none stopping = { node with phase := .reading .trying } := by
        rw [Node.act, hphase]
        simp only [read, Reader.Stage.advance, hclosed, Bool.false_eq_true, if_false]
      rw [hact]
      exact ⟨hevent, ⟨isStalled_iff.mpr (Or.inr ⟨hwords, _, rfl⟩), by simp⟩, rfl, by simp⟩
    | true =>
      have hact : node.act arity none stopping = { node with phase := .ended } := by
        rw [Node.act, hphase]
        simp only [read, Reader.Stage.advance, hclosed, if_true]
      rw [hact]
      refine ⟨hevent, ⟨rfl, by simp⟩, rfl, fun _ => ?_⟩
      simp only [patience, hphase]

end Node

namespace Network

/-- The nodes, told to end, take turns in some order until all have ended, and the first fault that one
of them has is `value`. -/
def ShutsDown (net : Network) (value : Option Fault) : Prop :=
  ∃ schedule : List Nat,
    (∀ node ∈ (net.stop.perform (schedule.map .turn)).nodes, node.phase = .ended) ∧
      (net.stop.perform (schedule.map .turn)).fault? = value

/-- The first fault depends on the machines alone. -/
theorem fault?_congr {net₁ net₂ : Network}
    (h : ∀ i : Nat, net₁.nodes[i]?.map Node.machine = net₂.nodes[i]?.map Node.machine) :
    net₁.fault? = net₂.fault? := by
  have hmachines : net₁.nodes.toList.map Node.machine = net₂.nodes.toList.map Node.machine := by
    refine List.ext_getElem? fun i => ?_
    rw [List.getElem?_map, List.getElem?_map, Array.getElem?_toList, Array.getElem?_toList]
    exact h i
  have hfault (net : Network) :
      net.fault? = (net.nodes.toList.map Node.machine).findSome? Machine.fault? := by
    rw [fault?, List.findSome?_map]
    rfl
  rw [hfault, hfault, hmachines]

/-- No node has a fallback or anything left to do. -/
structure Rests (net : Network) : Prop where
  fallback_eq : net.options.fallback = none
  node : ∀ (i : Nat) (node : Node), net.nodes[i]? = some node → node.Rests

variable {net : Network}

/-- In such a network, a turn concerns the node alone whose turn it is. -/
theorem Rests.change_turn (h : net.Rests) (i j : Nat) (node : Node) :
    net.change (.turn i) j node =
      if i = j then node.act net.arity none net.stopping else node := by
  have hevent : net.event? (.turn i) = none := by
    rcases hnode : net.nodes[i]? with _ | other
    · rw [event?, hnode]
      rfl
    · obtain ⟨hnone, -⟩ := (h.node i other hnode).act net.arity net.stopping
      rw [event?_turn hnode, h.fallback_eq, hnone]
      rfl
  have hturn : (Action.turn i = .turn j) = (i = j) := by simp
  rw [change, hevent, turned, h.fallback_eq]
  simp only [hturn]
  rfl

/-- A node in such a network executes nothing, and once its mailbox is closed it comes closer to giving
up in its turns. -/
theorem Rests.turn (h : net.Rests) (i : Nat) {j : Nat} {node : Node}
    (hnode : net.nodes[j]? = some node) :
    ∃ next, (net.act (.turn i)).nodes[j]? = some next ∧ next.Rests ∧
      next.machine = node.machine ∧ next.mailbox.closed = node.mailbox.closed ∧
      (node.mailbox.closed = true → next.patience = node.patience - if i = j then 1 else 0) := by
  obtain ⟨-, hrests, hmachine, hpatience⟩ := (h.node j node hnode).act net.arity
    net.stopping
  have hclosed : (node.act net.arity none net.stopping).mailbox.closed = node.mailbox.closed :=
    (Node.turn_act node (h.node j node hnode).not_answered).closed_eq
  rw [getElem?_nodes_act, hnode, Option.map_some, h.change_turn]
  by_cases hij : i = j
  · rw [if_pos hij, if_pos hij]
    exact ⟨_, rfl, hrests, hmachine, hclosed, hpatience⟩
  · rw [if_neg hij, if_neg hij]
    exact ⟨node, rfl, h.node j node hnode, rfl, rfl, fun _ => rfl⟩

theorem Rests.act_turn (h : net.Rests) (i : Nat) : (net.act (.turn i)).Rests := by
  refine ⟨by rw [options_act, h.fallback_eq], fun j next hnext => ?_⟩
  have hmap := hnext
  rw [getElem?_nodes_act] at hmap
  obtain ⟨node, hnode, -⟩ := Option.map_eq_some_iff.mp hmap
  obtain ⟨next', hnext', hrests, -⟩ := h.turn i hnode
  rw [hnext] at hnext'
  cases hnext'
  exact hrests

theorem Rests.perform (h : net.Rests) (schedule : List Nat) :
    (net.perform (schedule.map .turn)).Rests := by
  induction schedule generalizing net with
  | nil => exact h
  | cons i schedule ih => exact ih (h.act_turn i)

/-- Whatever the order of their turns, they execute nothing, and once its mailbox is closed each gives
up in time. -/
theorem Rests.exists_perform (h : net.Rests) (schedule : List Nat) {i : Nat} {node : Node}
    (hnode : net.nodes[i]? = some node) :
    ∃ last, (net.perform (schedule.map .turn)).nodes[i]? = some last ∧
      last.machine = node.machine ∧
      (node.mailbox.closed = true → last.patience = node.patience - schedule.count i) := by
  induction schedule generalizing net node with
  | nil => exact ⟨node, hnode, rfl, fun _ => rfl⟩
  | cons j schedule ih =>
    obtain ⟨next, hnext, -, hmachine, hclosed, hpatience⟩ := h.turn j hnode
    obtain ⟨last, hlast, hmachine', hpatience'⟩ := ih (h.act_turn j) hnext
    refine ⟨last, hlast, hmachine'.trans hmachine, fun hnodeClosed => ?_⟩
    rw [hpatience' (hclosed.trans hnodeClosed), hpatience hnodeClosed, List.count_cons]
    by_cases hji : j = i
    · simp only [hji, if_true, beq_self_eq_true]
      omega
    · simp only [if_neg hji, beq_iff_eq]
      omega

theorem Rests.fault?_perform (h : net.Rests) (schedule : List Nat) :
    (net.perform (schedule.map .turn)).fault? = net.fault? := by
  refine fault?_congr fun i => ?_
  rcases hnode : net.nodes[i]? with _ | node
  · have hnone : (net.perform (schedule.map .turn)).nodes[i]? = none := by
      rw [Array.getElem?_eq_none_iff, size_nodes_perform]
      exact Array.getElem?_eq_none_iff.mp hnode
    rw [hnone]
  · obtain ⟨last, hlast, hmachine, -⟩ := h.exists_perform schedule hnode
    rw [hlast, Option.map_some, Option.map_some, hmachine]

/-! ## After the nodes were told to end -/

theorem getElem?_nodes_stop (net : Network) (i : Nat) :
    net.stop.nodes[i]? =
      net.nodes[i]?.map fun node => { node with mailbox := node.mailbox.close } := by
  rw [stop, Array.getElem?_map]

theorem Rests.stop (h : net.Rests) : net.stop.Rests := by
  refine ⟨h.fallback_eq, fun i last hlast => ?_⟩
  rw [getElem?_nodes_stop] at hlast
  obtain ⟨node, hnode, rfl⟩ := Option.map_eq_some_iff.mp hlast
  exact ⟨(h.node i node hnode).stalled, (h.node i node hnode).not_answered⟩

theorem fault?_stop (net : Network) : net.stop.fault? = net.fault? := by
  refine fault?_congr fun i => ?_
  rw [getElem?_nodes_stop, Option.map_map]
  rfl

/-- After two turns each, all nodes that were told to end have ended. -/
theorem Rests.exists_schedule (h : net.Rests) :
    ∃ schedule : List Nat,
      ∀ node ∈ (net.stop.perform (schedule.map .turn)).nodes, node.phase = .ended := by
  -- the first turn may be the one that finds the mailbox empty, and the second gives up
  let round := List.range net.nodes.size
  refine ⟨round ++ round, fun last hlast => ?_⟩
  obtain ⟨i, hi, hlast⟩ := Array.mem_iff_getElem.mp hlast
  have hget : (net.stop.perform ((round ++ round).map .turn)).nodes[i]? = some last := by
    rw [Array.getElem?_eq_getElem hi, hlast]
  have hsize : i < net.nodes.size := by
    rw [size_nodes_perform] at hi
    simpa [Network.stop] using hi
  have hstopped := getElem?_nodes_stop net i
  rw [Array.getElem?_eq_getElem hsize, Option.map_some] at hstopped
  obtain ⟨last', hlast', -, hpatience⟩ := h.stop.exists_perform (round ++ round) hstopped
  rw [hget] at hlast'
  cases hlast'
  have hturns : 0 < round.count i := List.count_pos_iff.mpr (List.mem_range.mpr hsize)
  have hzero : last.patience = 0 := by
    rw [hpatience rfl, List.count_append]
    have htwo : 2 ≤ round.count i + round.count i := by omega
    exact Nat.sub_eq_zero_of_le (Nat.le_trans (Node.patience_le_two _) htwo)
  exact ((h.stop.perform _).node i last hget).ended_of_patience_eq_zero hzero

/-- A network that has nothing left to do can be shut down, and however the nodes take their turns, the
answer is the first fault that there was before. -/
theorem Rests.shutsDown_iff (h : net.Rests) (value : Option Fault) :
    net.ShutsDown value ↔ value = net.fault? := by
  constructor
  · rintro ⟨schedule, -, rfl⟩
    rw [h.stop.fault?_perform, fault?_stop]
  · rintro rfl
    obtain ⟨schedule, hended⟩ := h.exists_schedule
    exact ⟨schedule, hended, by rw [h.stop.fault?_perform, fault?_stop]⟩

/-! ## The order that the schedule takes -/

theorem exists_turns_of_runNode {i fuel : Nat} {last : Network} (h : net.runNode i fuel = some last) :
    ∃ schedule : List Nat, last = net.perform (schedule.map .turn) := by
  induction fuel generalizing net with
  | zero => cases h
  | succ fuel ih =>
    rw [runNode] at h
    split at h
    · cases h
      exact ⟨[], rfl⟩
    · split at h
      · cases h
        exact ⟨[], rfl⟩
      · obtain ⟨schedule, rfl⟩ := ih h
        exact ⟨i :: schedule, rfl⟩

theorem exists_turns_of_sweep {fuel : Nat} {last : Network} (h : net.sweep fuel = some last) :
    ∃ schedule : List Nat, last = net.perform (schedule.map .turn) := by
  rw [sweep] at h
  generalize List.range net.nodes.size = addresses at h
  induction addresses generalizing net with
  | nil =>
    cases h
    exact ⟨[], rfl⟩
  | cons i addresses ih =>
    rw [List.foldlM_cons] at h
    obtain ⟨next, hnext, hrest⟩ := Option.bind_eq_some_iff.mp h
    obtain ⟨first, rfl⟩ := exists_turns_of_runNode hnext
    obtain ⟨rest, rfl⟩ := ih hrest
    exact ⟨first ++ rest, by rw [List.map_append, perform_append]⟩

/-- What the schedule comes to is what some order of turns comes to. -/
theorem exists_turns_of_quiesce {fuel rounds : Nat} {last : Network}
    (h : net.quiesce fuel rounds = some last) :
    ∃ schedule : List Nat, last = net.perform (schedule.map .turn) := by
  induction rounds generalizing net with
  | zero => cases h
  | succ rounds ih =>
    rw [quiesce] at h
    split at h
    · cases h
      exact ⟨[], rfl⟩
    · split at h
      · cases h
      · next next hnext =>
        obtain ⟨first, rfl⟩ := exists_turns_of_sweep hnext
        obtain ⟨rest, rfl⟩ := ih h
        exact ⟨first ++ rest, by rw [List.map_append, perform_append]⟩

/-- If a network that has nothing left to do is shut down by the schedule, the first fault is the one
that there was before. -/
theorem Rests.fault?_shutdown (h : net.Rests) {fuel : Nat} {last : Network}
    (hlast : net.shutdown fuel = some last) : last.fault? = net.fault? := by
  rw [shutdown] at hlast
  split at hlast
  · cases hlast
  · next quiet hquiet =>
    obtain ⟨before, rfl⟩ := exists_turns_of_quiesce hquiet
    obtain ⟨after, rfl⟩ := exists_turns_of_quiesce hlast
    rw [(h.perform before).stop.fault?_perform, fault?_stop, h.fault?_perform]

end Network

end Intcode
