import Intcode.Network.Basic

/-!
# A schedule

Where the nodes of a network do not race each other, every order of their actions that leaves nothing
undone comes to the same. This module fixes one: each node in turn runs until it is blocked, round
after round, until all are. Only then waiting nodes run out of patience, all of them once, and it
starts over; that ends when every node has come to rest.

As for machines, there is a bound on the number of actions, and `none` when it is used up.
-/

namespace Intcode.Network

/-- Lets one node act until it is blocked. -/
def runNode (i : Nat) : Nat → Network → Option Network
  | 0, _ => none
  | fuel + 1, net =>
    match net.nodes[i]? with
    | none => some net
    | some node => if node.isBlocked then some net else runNode i fuel (net.advance i)

/-- Lets the nodes act one after the other. -/
def sweep (fuel : Nat) (net : Network) : Option Network :=
  (List.range net.nodes.size).foldlM (fun net i => net.runNode i fuel) net

/-- Lets the nodes act until all are blocked. -/
def quiesce (fuel : Nat) : Nat → Network → Option Network
  | 0, _ => none
  | rounds + 1, net =>
    if net.nodes.all Node.isBlocked then some net
    else
      match net.sweep fuel with
      | none => none
      | some net => quiesce fuel rounds net

/-- Lets every node that waits find its mailbox empty once more. -/
def timeOut (net : Network) : Network :=
  (List.range net.nodes.size).foldl
    (fun net i =>
      match net.nodes[i]? with
      | some node => if node.phase = .reading .trying then net.advance i else net
      | none => net)
    net

/-- Lets the nodes act until each has ended or counts as idle. -/
def settle (fuel : Nat) : Nat → Network → Option Network
  | 0, _ => none
  | rounds + 1, net =>
    match net.quiesce fuel fuel with
    | none => none
    | some net =>
      if net.nodes.all (Node.isResting net.options.idleThreshold) then some net
      else settle fuel rounds net.timeOut

/-- Waits for a packet from outside: until there is one, or until every node has come to rest. -/
def await (fuel : Nat) (net : Network) : Option (Option Packet × Network) :=
  match net.quiesce fuel fuel with
  | none => none
  | some net =>
    if net.external.isEmpty then (net.settle fuel fuel).map receive else some net.receive

/-- Takes all packets that wait outside, ordered by sender and for each sender as they were sent. -/
def collect (net : Network) : List Packet × Network :=
  (net.external.mergeSort fun a b => a.sender ≤ b.sender, { net with external := [] })

/-- Lets the nodes act until all are blocked, stops them and lets them end. -/
def shutdown (fuel : Nat) (net : Network) : Option Network :=
  match net.quiesce fuel fuel with
  | none => none
  | some net => net.stop.quiesce fuel fuel

end Intcode.Network
