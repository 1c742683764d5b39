import Intcode.Proofs.Machine.Streams
import Intcode.Proofs.Network.Confluence

/-!
# Idle nodes

A mailbox counts how often in a row its reader came and found nothing. In a network whose nodes have no
fallback and whose mailboxes are open, that count says where the reader stands: unless it is zero, the
node is still at the input instruction for which it came, and no word has arrived since
(`attentive_perform`). For a word that is taken or put in sets the count back, and a node does nothing
else before it has one.

If all nodes wait in this way there is nothing left that could wake one of them but the supervisor. Until
it sends something, no node executes an instruction, whatever happens (`Dormant.perform`), and the
counts do not fall.
-/

namespace Intcode

open Machine

namespace Node

/-- The node's mailbox is open. A node that reads does so because its machine wants a word; and if the
mailbox was found empty since the last word came, it is empty and the node reads. -/
structure Attentive (node : Node) : Prop where
  closed_eq : node.mailbox.closed = false
  emptyReads_le : node.mailbox.emptyReads ≤ Mailbox.emptyReadLimit
  starves : ∀ stage, node.phase = .reading stage → node.machine.Starves
  reading : 0 < node.mailbox.emptyReads →
    node.mailbox.words = [] ∧ ∃ stage, node.phase = .reading stage

variable {arity : Nat} {stopping : Bool} {node node' : Node}

/-- After a word that was taken or put in, only what the node reads for counts. -/
theorem attentive_of_emptyReads_eq_zero (hclosed : node.mailbox.closed = false)
    (hzero : node.mailbox.emptyReads = 0)
    (hstarves : ∀ stage, node.phase = .reading stage → node.machine.Starves) : node.Attentive := by
  refine ⟨hclosed, ?_, hstarves, fun hpos => ?_⟩
  · rw [hzero]
    exact Nat.zero_le _
  · omega

theorem attentive_boot (program : Program) (config : Config) (address : Nat) :
    (boot program config address).Attentive :=
  attentive_of_emptyReads_eq_zero rfl rfl fun _ h => nomatch h

/-- A node that does not read was not disappointed since its last word came. -/
theorem Attentive.emptyReads_eq_zero (h : node.Attentive)
    (hphase : ∀ stage, node.phase ≠ .reading stage) : node.mailbox.emptyReads = 0 := by
  rcases Nat.eq_zero_or_pos node.mailbox.emptyReads with hzero | hpos
  · exact hzero
  · obtain ⟨-, stage, hreading⟩ := h.reading hpos
    exact absurd hreading (hphase stage)

/-- A node begins to read when its machine starves. -/
theorem starves_execute {stage : Reader.Stage} (hphase : node.phase = .executing)
    (h : node.execute.phase = .reading stage) : node.execute.machine.Starves := by
  cases hstatus : node.machine.step.status with
  | awaitingInput =>
    have hmachine : node.execute.machine = node.machine.step := by simp only [execute, hstatus]
    rw [hmachine]
    exact starves_step_of_status hstatus
  | running | output | halted | faulted =>
    rw [phase_execute, hstatus] at h
    simp [hphase] at h

/-- A turn keeps a node attentive. -/
theorem Turn.attentive {event : Option Event} (h : Turn arity none stopping node event node')
    (hattentive : node.Attentive) : node'.Attentive := by
  cases h with
  | idle => exact hattentive
  | executed hphase =>
    -- an instruction may begin to read, but has not found the mailbox empty yet
    have hzero := hattentive.emptyReads_eq_zero (by simp [hphase])
    apply attentive_of_emptyReads_eq_zero
    · rw [mailbox_execute]
      exact hattentive.closed_eq
    · rwa [mailbox_execute]
    · exact fun stage => starves_execute hphase
  | held hphase _ | routed hphase _ _ =>
    have hzero := hattentive.emptyReads_eq_zero (by simp [hphase])
    refine attentive_of_emptyReads_eq_zero hattentive.closed_eq hzero fun stage hreading => ?_
    exact absurd hreading (afterDelivery_ne_reading stage)
  | took hphase hwords =>
    exact attentive_of_emptyReads_eq_zero hattentive.closed_eq rfl fun _ h => nomatch h
  | missed hphase hwords =>
    have htake : node.mailbox.take.2 = { node.mailbox with
        emptyReads := min (node.mailbox.emptyReads + 1) Mailbox.emptyReadLimit } := by
      simp only [Mailbox.take, hwords]
    refine ⟨?_, ?_, fun _ _ => hattentive.starves _ hphase, fun _ => ⟨?_, _, rfl⟩⟩
    · rw [htake]
      exact hattentive.closed_eq
    · rw [htake]
      exact Nat.min_le_right _ _
    · rwa [htake]
  | gaveUp hphase hclosed =>
    rw [hattentive.closed_eq] at hclosed
    cases hclosed
  | madeDo _ _ hfallback => cases hfallback
  | triedAgain hphase _ _ =>
    refine ⟨hattentive.closed_eq, hattentive.emptyReads_le,
      fun _ _ => hattentive.starves _ hphase, fun hpos => ⟨?_, _, rfl⟩⟩
    exact (hattentive.reading hpos).1

/-- A node stays attentive when something is put into its mailbox. -/
theorem Attentive.deposited (h : node.Attentive) (deposit : Option Network.Deposit) :
    (Network.deposited deposit node).Attentive := by
  cases deposit with
  | none => exact h
  | some deposit => exact attentive_of_emptyReads_eq_zero h.closed_eq rfl h.starves

/-- An attentive node with an idle mailbox waits for a word. -/
theorem Attentive.waits {threshold : Nat} (h : node.Attentive) (hthreshold : 1 ≤ threshold)
    (hidle : node.mailbox.isIdle threshold = true) :
    node.mailbox.words = [] ∧ node.machine.Starves ∧ ∃ stage, node.phase = .reading stage := by
  rw [Mailbox.isIdle, Bool.and_eq_true, decide_eq_true_eq] at hidle
  obtain ⟨hwords, stage, hphase⟩ := h.reading (Nat.lt_of_lt_of_le hthreshold hidle.2)
  exact ⟨hwords, h.starves stage hphase, stage, hphase⟩

/-! ## Dormant nodes -/

/-- The node has nothing left to do, and its mailbox is empty and was found so at least `threshold` times
in a row. -/
structure Dormant (threshold : Nat) (node : Node) : Prop where
  rests : node.Rests
  isIdle : node.mailbox.isIdle threshold = true
  emptyReads_le : node.mailbox.emptyReads ≤ Mailbox.emptyReadLimit

variable {threshold : Nat}

/-- To find an idle mailbox empty once more leaves it idle. The count goes no further than its limit,
which was not exceeded before. -/
theorem isIdle_take {box : Mailbox} (h : box.isIdle threshold = true)
    (hle : box.emptyReads ≤ Mailbox.emptyReadLimit) :
    box.take.2.isIdle threshold = true ∧ box.take.2.emptyReads ≤ Mailbox.emptyReadLimit := by
  rw [Mailbox.isIdle, Bool.and_eq_true, decide_eq_true_eq, List.isEmpty_iff] at h
  obtain ⟨hwords, hthreshold⟩ := h
  simp only [Mailbox.take, hwords, Mailbox.isIdle, List.isEmpty_nil, Bool.true_and,
    decide_eq_true_eq]
  omega

/-- In its turn a dormant node stays so, and its machine executes nothing. -/
theorem Dormant.act (h : node.Dormant threshold) (arity : Nat) (stopping : Bool) :
    (node.act arity none stopping).Dormant threshold ∧
      (node.act arity none stopping).machine = node.machine := by
  obtain ⟨hevent, hrests, hmachine, -⟩ := h.rests.act arity stopping
  have hturn : Turn arity none stopping node (node.event? arity none)
      (node.act arity none stopping) := turn_act node h.rests.not_answered
  rw [hevent] at hturn
  have hmailbox : (node.act arity none stopping).mailbox.isIdle threshold = true ∧
      (node.act arity none stopping).mailbox.emptyReads ≤ Mailbox.emptyReadLimit := by
    generalize node.act arity none stopping = next at hturn
    cases hturn with
    | idle | gaveUp | triedAgain => exact ⟨h.isIdle, h.emptyReads_le⟩
    | missed _ _ => exact isIdle_take h.isIdle h.emptyReads_le
  exact ⟨⟨hrests, hmailbox.1, hmailbox.2⟩, hmachine⟩

/-- A dormant node stays so when its mailbox is closed. -/
theorem Dormant.close (h : node.Dormant threshold) (closes : Bool) :
    Dormant threshold
      { node with mailbox := if closes then node.mailbox.close else node.mailbox } := by
  cases closes with
  | false => exact h
  | true => exact ⟨⟨h.rests.stalled, h.rests.not_answered⟩, h.isIdle, h.emptyReads_le⟩

/-- An attentive node with an idle mailbox is dormant. -/
theorem Attentive.dormant (h : node.Attentive) (hthreshold : 1 ≤ threshold)
    (hidle : node.mailbox.isIdle threshold = true)
    (hanswered : ∀ word, node.phase ≠ .reading (.answered word)) : node.Dormant threshold := by
  obtain ⟨hwords, -, stage, hphase⟩ := h.waits hthreshold hidle
  exact ⟨⟨isStalled_iff.mpr (Or.inr ⟨hwords, stage, hphase⟩), hanswered⟩, hidle, h.emptyReads_le⟩

end Node

namespace Network

variable {program : Program} {n : Nat} {options : Options} {start : Network}

/-- After actions that close no mailbox, every node without a fallback is attentive. -/
theorem attentive_perform (hstart : start = ofProgram program n options)
    (hfallback : options.fallback = none) {actions : List Action}
    (hopen : ∀ action ∈ actions, action.LeavesOpen) {i : Nat} {node : Node}
    (hnode : (start.perform actions).nodes[i]? = some node) : node.Attentive := by
  refine perform_induction Action.LeavesOpen (fun _ node _ => node.Attentive) ?_ ?_ hopen hnode
  · intro i node hnode
    rw [hstart, getElem?_nodes_ofProgram] at hnode
    split at hnode
    · cases hnode
      exact Node.attentive_boot program options.machine i
    · cases hnode
  · intro actions _ action hlast i node hnode hattentive
    have hturn := turn_turned hnode (balanced_perform hstart hnode).regular.not_answered action
    have hnone : (start.perform actions).options.fallback = none := by
      rw [options_perform, hstart]
      exact hfallback
    rw [hnone] at hturn
    rw [change, hlast i]
    exact (hturn.attentive hattentive).deposited _

/-! ## Networks in which every node is idle -/

theorem isIdle_eq_true_iff {net : Network} :
    net.isIdle = true ↔ ∀ (i : Nat) (node : Node), net.nodes[i]? = some node →
      node.mailbox.isIdle net.options.idleThreshold = true := by
  rw [isIdle, Mailbox.allIdle, List.all_map, List.all_eq_true]
  constructor
  · intro h i node hnode
    exact h node (List.mem_of_getElem? (Array.getElem?_toList ▸ hnode))
  · intro h node hmem
    obtain ⟨i, hi⟩ := List.mem_iff_getElem?.mp hmem
    rw [Array.getElem?_toList] at hi
    exact h i node hi

/-- Every node is at an input instruction and waits at its mailbox, which is empty. -/
def Waiting (net : Network) : Prop :=
  ∀ (i : Nat) (node : Node), net.nodes[i]? = some node →
    (node.phase = .reading .trying ∨ node.phase = .reading .checking) ∧
      node.machine.Starves ∧ node.mailbox.words = []

/-- No node has a fallback or anything left to do, and all count as idle. -/
structure Dormant (net : Network) : Prop where
  fallback_eq : net.options.fallback = none
  node : ∀ (i : Nat) (node : Node), net.nodes[i]? = some node →
    node.Dormant net.options.idleThreshold

/-- In an open network without a fallback, every node waits when all count as idle, and then none has
anything left to do. -/
theorem waiting_and_dormant_of_isIdle (hstart : start = ofProgram program n options)
    (hfallback : options.fallback = none) (hthreshold : 1 ≤ options.idleThreshold)
    {actions : List Action} (hopen : ∀ action ∈ actions, action.LeavesOpen)
    (hidle : (start.perform actions).isIdle = true) :
    (start.perform actions).Waiting ∧ (start.perform actions).Dormant := by
  have hoptions : (start.perform actions).options = options := by
    rw [options_perform, hstart]
    rfl
  have hnodes (i : Nat) (node : Node) (hnode : (start.perform actions).nodes[i]? = some node) :
      node.Attentive ∧ node.mailbox.isIdle options.idleThreshold = true ∧
        ∀ word, node.phase ≠ .reading (.answered word) := by
    have hidleNode := isIdle_eq_true_iff.mp hidle i node hnode
    rw [hoptions] at hidleNode
    exact ⟨attentive_perform hstart hfallback hopen hnode, hidleNode,
      (balanced_perform hstart hnode).regular.not_answered⟩
  constructor
  · intro i node hnode
    obtain ⟨hattentive, hidleNode, hanswered⟩ := hnodes i node hnode
    obtain ⟨hwords, hstarves, stage, hphase⟩ := hattentive.waits hthreshold hidleNode
    refine ⟨?_, hstarves, hwords⟩
    rcases stage with _ | _ | word
    · exact Or.inl hphase
    · exact Or.inr hphase
    · exact absurd hphase (hanswered word)
  · refine ⟨by rw [hoptions, hfallback], fun i node hnode => ?_⟩
    obtain ⟨hattentive, hidleNode, hanswered⟩ := hnodes i node hnode
    rw [hoptions]
    exact hattentive.dormant hthreshold hidleNode hanswered

/-! ## Nothing left to do -/

/-- The supervisor puts no words into a mailbox. -/
def Action.SendsNothing (action : Action) : Prop :=
  ∀ i payload, action ≠ .send i payload

variable {net : Network} {action : Action}

theorem Dormant.isIdle_eq_true (h : net.Dormant) : net.isIdle = true :=
  isIdle_eq_true_iff.mpr fun i node hnode => (h.node i node hnode).isIdle

/-- All that can happen without a word from the supervisor is that it receives a packet. -/
theorem Dormant.event?_cases (h : net.Dormant) (hsends : action.SendsNothing) :
    net.event? action = none ∨ ∃ packet, net.event? action = some (.received packet) := by
  cases action with
  | turn i =>
    refine Or.inl ?_
    rcases hnode : net.nodes[i]? with _ | node
    · rw [event?, hnode]
      rfl
    · obtain ⟨hnone, -⟩ := (h.node i node hnode).rests.act net.arity net.stopping
      rw [event?_turn hnode, h.fallback_eq, hnone]
      rfl
  | send i payload => exact absurd rfl (hsends i payload)
  | receive =>
    rw [event?]
    rcases net.receive.1 with _ | packet
    · exact Or.inl rfl
    · exact Or.inr ⟨packet, rfl⟩
  | close i => exact Or.inl rfl
  | stop => exact Or.inl rfl

/-- No node is woken, and no machine executes anything. -/
theorem Dormant.change (h : net.Dormant) (hsends : action.SendsNothing) {i : Nat} {node : Node}
    (hnode : net.nodes[i]? = some node) :
    (net.change action i node).Dormant net.options.idleThreshold ∧
      (net.change action i node).machine = node.machine := by
  have hdeposit : (net.event? action).bind (Event.deposit? i) = none := by
    rcases h.event?_cases hsends with hevent | ⟨packet, hevent⟩ <;> rw [hevent] <;> rfl
  have hturned : (net.turned action i node).Dormant net.options.idleThreshold ∧
      (net.turned action i node).machine = node.machine := by
    rw [turned, h.fallback_eq]
    split
    · exact (h.node i node hnode).act net.arity net.stopping
    · exact ⟨h.node i node hnode, rfl⟩
  rw [Network.change, hdeposit, deposited_none]
  exact ⟨hturned.1.close _, hturned.2⟩

theorem Dormant.act (h : net.Dormant) (hsends : action.SendsNothing) : (net.act action).Dormant := by
  refine ⟨by rw [options_act, h.fallback_eq], fun i next hnext => ?_⟩
  rw [getElem?_nodes_act] at hnext
  obtain ⟨node, hnode, rfl⟩ := Option.map_eq_some_iff.mp hnext
  rw [options_act]
  exact (h.change hsends hnode).1

/-- Until the supervisor sends something, the network stays as it is: no node does anything that counts
as an event, so nothing is put into a mailbox and nothing leaves the network. -/
theorem Dormant.perform (h : net.Dormant) {actions : List Action}
    (hsends : ∀ action ∈ actions, action.SendsNothing) :
    (net.perform actions).Dormant ∧
      (∀ event ∈ net.log actions, ∃ packet, event = .received packet) ∧
      ∀ i : Nat, (net.perform actions).nodes[i]?.map Node.machine = net.nodes[i]?.map Node.machine := by
  induction actions generalizing net with
  | nil => exact ⟨h, fun _ hmem => absurd hmem List.not_mem_nil, fun _ => rfl⟩
  | cons action actions ih =>
    have hfirst := hsends action List.mem_cons_self
    obtain ⟨hdormant, hlog, hmachines⟩ :=
      ih (h.act hfirst) fun a ha => hsends a (List.mem_cons_of_mem _ ha)
    refine ⟨hdormant, fun event hmem => ?_, fun i => ?_⟩
    · rcases List.mem_append.mp hmem with hmem | hmem
      · rcases h.event?_cases hfirst with hnone | ⟨packet, hreceived⟩
        · rw [hnone] at hmem
          exact absurd hmem List.not_mem_nil
        · rw [hreceived] at hmem
          exact ⟨packet, List.mem_singleton.mp hmem⟩
      · exact hlog event hmem
    · refine (hmachines i).trans ?_
      rw [getElem?_nodes_act]
      rcases hnode : net.nodes[i]? with _ | node
      · rfl
      · exact congrArg some (h.change hfirst hnode).2

end Network

end Intcode
