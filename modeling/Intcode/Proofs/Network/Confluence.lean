import Mathlib.Data.List.Infix
import Intcode.Proofs.Network.Shutdown

/-!
# What a network of waiting nodes comes to

Where nodes have no fallback and no mailbox has more than one sender, it does not matter in which order
the nodes take their turns: whatever is done until nothing is left to do, all nodes have put out the
same words, are left in the same states, and have sent the same packets.

## Shape of the proof

Take two ways to act until nothing is left to do, and go through the first. So far, the words put into
every mailbox are the beginning of those that are put into it the second way (`pushed_isPrefix`).
Then so are the words that a node has taken, what it has done and hence the packets that it has sent,
and this keeps it so when the next packet arrives; a mailbox of a single sender has its words in the
order in which they were sent. The second way is also a beginning of the first, so both are the same.
-/

namespace Intcode.Network

/-! ## Nodes of an open network -/

/-- An action closes no mailbox. -/
def Action.LeavesOpen (action : Action) : Prop :=
  ∀ i, action.closes i = false

theorem Action.LeavesOpen.ne_stop {action : Action} (h : action.LeavesOpen) : action ≠ .stop := by
  rintro rfl
  have hcloses := h 0
  cases hcloses

/-- The node's mailbox is open, and what the node has done since it was `start` leads to what it is and
was all that it could do. -/
structure Waits (arity : Nat) (node start : Node) (events : List Node.Event) : Prop where
  closed_eq : node.mailbox.closed = false
  core_eq : node.core = events.foldl Node.follow start
  admits : Node.Admits arity start events

/-- An action that closes no mailbox keeps it so. -/
theorem Waits.change {net : Network} {i : Nat} {node start : Node} {log : Log}
    (h : Waits net.arity node start (log.of i)) (hnode : net.nodes[i]? = some node)
    (hfallback : net.options.fallback = none) (hstopping : net.stopping = false)
    (hanswered : ∀ word, node.phase ≠ .reading (.answered word)) {action : Action}
    (hopen : action.LeavesOpen) :
    Waits net.arity (net.change action i node) start
      (Log.of i (log ++ (net.event? action).toList)) := by
  have hturn := turn_turned hnode hanswered action
  rw [hfallback, hstopping] at hturn
  have hevents := Log.of_toList i (net.event? action)
  refine ⟨?_, ?_, ?_⟩
  · rw [closed_change, hturn.closed_eq, h.closed_eq, hopen i]
    rfl
  · rw [Log.of_append, hevents, List.foldl_append, ← h.core_eq, ← hturn.core_eq h.closed_eq]
    rfl
  · rw [Log.of_append, hevents, Node.admits_append_iff, ← h.core_eq]
    exact ⟨h.admits, hturn.admits⟩

variable {program : Program} {n : Nat} {options : Options} {start : Network}

/-- No node is told to end. -/
theorem stopping_perform {net : Network} {actions : List Action}
    (hopen : ∀ action ∈ actions, action.LeavesOpen) :
    (net.perform actions).stopping = net.stopping := by
  induction actions generalizing net with
  | nil => rfl
  | cons action actions ih =>
    have hfirst := hopen action List.mem_cons_self
    have hrest : ((net.act action).perform actions).stopping = (net.act action).stopping :=
      ih fun a ha => hopen a (List.mem_cons_of_mem _ ha)
    exact hrest.trans (stopping_act hfirst.ne_stop)

/-- After actions that close no mailbox, every node waits for its words, and its log says what it did. -/
theorem waits_perform (hstart : start = ofProgram program n options)
    (hfallback : options.fallback = none) {actions : List Action}
    (hopen : ∀ action ∈ actions, action.LeavesOpen) {i : Nat} {node : Node}
    (hnode : (start.perform actions).nodes[i]? = some node) :
    Waits start.arity node (.boot program options.machine i) ((start.log actions).of i) := by
  have hoptions : start.options.fallback = none := by
    subst hstart
    exact hfallback
  have hstopping : start.stopping = false := by
    subst hstart
    rfl
  refine perform_induction Action.LeavesOpen
    (fun i node log => Waits start.arity node (.boot program options.machine i) (log.of i))
    ?_ ?_ hopen hnode
  · intro i node hnode
    rw [hstart, getElem?_nodes_ofProgram] at hnode
    split at hnode
    · cases hnode
      exact ⟨rfl, rfl, trivial⟩
    · cases hnode
  · intro actions hopen action hlast i node hnode hwaits
    rw [← options_perform start actions] at hoptions
    rw [← stopping_perform hopen] at hstopping
    rw [← arity_perform start actions] at hwaits ⊢
    exact hwaits.change hnode hoptions hstopping
      (balanced_perform hstart hnode).regular.not_answered hlast

/-! ## Ways to act until nothing is left to do -/

/-- All words that were put into one mailbox came from one sender. -/
def Log.SingleSender (n : Nat) (log : Log) : Prop :=
  ∀ i < n, ∃ source, ∀ deposit ∈ log.deposits i, deposit.payload ≠ [] → deposit.source = source

/-- Actions during which no mailbox is closed leave nothing to do: every node has ended, or waits for a
word. -/
structure Exhausts (start : Network) (actions : List Action) : Prop where
  leavesOpen : ∀ action ∈ actions, action.LeavesOpen
  stalled : ∀ (i : Nat) (node : Node), (start.perform actions).nodes[i]? = some node →
    node.isStalled = true

theorem Log.SingleSender.of_append {log₁ log₂ : Log} (h : (log₁ ++ log₂).SingleSender n) :
    log₁.SingleSender n := by
  intro i hi
  obtain ⟨source, hsource⟩ := h i hi
  refine ⟨source, fun deposit hdeposit => hsource deposit ?_⟩
  rw [Log.deposits_append]
  exact List.mem_append_left _ hdeposit

/-- The words in a mailbox of one sender are the blocks that it put in. -/
theorem Log.pushed_eq_flatten {log : Log} {i : Nat} {source : Option Nat}
    (h : ∀ deposit ∈ log.deposits i, deposit.payload ≠ [] → deposit.source = source) :
    log.pushed i = (log.depositsFrom source i).flatten := by
  rw [pushed, depositsFrom]
  generalize log.deposits i = deposits at h
  induction deposits with
  | nil => rfl
  | cons deposit deposits ih =>
    have hrest := ih fun d hd => h d (List.mem_cons_of_mem _ hd)
    by_cases hsource : deposit.source = source
    · rw [List.flatMap_cons, List.filter_cons, if_pos (decide_eq_true hsource), List.map_cons,
        List.flatten_cons, hrest]
    · have hempty : deposit.payload = [] := by
        by_contra hne
        exact hsource (h deposit List.mem_cons_self hne)
      rw [List.flatMap_cons, hempty, List.nil_append, List.filter_cons,
        if_neg (by simpa using hsource), hrest]

theorem exists_node {i : Nat} (hi : i < start.nodes.size) (actions : List Action) :
    ∃ node, (start.perform actions).nodes[i]? = some node :=
  ⟨_, Array.getElem?_eq_getElem (by rwa [size_nodes_perform])⟩

/-- What a node takes in an action was in its mailbox before. -/
theorem taken_concat_isPrefix (hstart : start = ofProgram program n options) {i : Nat}
    (hi : i < start.nodes.size) (actions : List Action) (action : Action) :
    (start.log (actions ++ [action])).taken i <+: (start.log actions).pushed i := by
  obtain ⟨node, hnode⟩ := exists_node hi actions
  have hbalanced := balanced_perform hstart hnode
  have hturn := turn_turned hnode hbalanced.regular.not_answered action
  rw [log_concat, Log.taken_append, Log.taken, ← hbalanced.taken_eq, hturn.words_eq, Log.taken,
    Log.of_toList, ← List.append_assoc]
  exact List.prefix_append _ _

theorem taken_isPrefix (hstart : start = ofProgram program n options) {i : Nat}
    (hi : i < start.nodes.size) (actions : List Action) :
    (start.log actions).taken i <+: (start.log actions).pushed i := by
  obtain ⟨node, hnode⟩ := exists_node hi actions
  exact ⟨node.mailbox.words, (balanced_perform hstart hnode).taken_eq⟩

/-- What a node has done is the beginning of what it does in another way until nothing is left to do,
if the words that it took are the beginning of those that it gets there. -/
theorem of_isPrefix (hstart : start = ofProgram program n options)
    (hfallback : options.fallback = none) {actions₁ actions₂ : List Action}
    (hopen₁ : ∀ action ∈ actions₁, action.LeavesOpen) (h₂ : start.Exhausts actions₂) {i : Nat}
    (htaken : i < start.nodes.size →
      (start.log actions₁).taken i <+: (start.log actions₂).pushed i) :
    (start.log actions₁).of i <+: (start.log actions₂).of i := by
  by_cases hi : i < start.nodes.size
  · obtain ⟨node₁, hnode₁⟩ := exists_node hi actions₁
    obtain ⟨node₂, hnode₂⟩ := exists_node hi actions₂
    have hwaits₁ := waits_perform hstart hfallback hopen₁ hnode₁
    have hwaits₂ := waits_perform hstart hfallback h₂.leavesOpen hnode₂
    refine Node.isPrefix_of_admits hwaits₁.admits hwaits₂.admits (htaken hi)
      (taken_isPrefix hstart hi actions₂) ?_
    -- the second could only go on by taking a word, and its mailbox is empty
    intro event hoffers
    rw [← hwaits₂.core_eq] at hoffers
    obtain ⟨⟨word, rfl⟩, hempty⟩ := hoffers.of_isStalled (h₂.stalled i node₂ hnode₂)
    have htaken₂ := (balanced_perform hstart hnode₂).taken_eq
    rw [hempty, List.append_nil] at htaken₂
    exact ⟨word, rfl, htaken₂⟩
  · rw [of_log_eq_nil (Nat.not_lt.mp hi)]
    exact List.nil_prefix

/-- If every sender has put in the beginning of what it puts in there, a mailbox of one sender has got
the beginning of what it gets there. -/
theorem Log.pushed_isPrefix {log₁ log₂ : Log} {i : Nat} {source₁ source₂ : Option Nat}
    (h₁ : ∀ deposit ∈ log₁.deposits i, deposit.payload ≠ [] → deposit.source = source₁)
    (h₂ : ∀ deposit ∈ log₂.deposits i, deposit.payload ≠ [] → deposit.source = source₂)
    (hfrom : ∀ source, log₁.depositsFrom source i <+: log₂.depositsFrom source i) :
    log₁.pushed i <+: log₂.pushed i := by
  rw [pushed_eq_flatten h₁, pushed_eq_flatten h₂]
  by_cases hsource : source₁ = source₂
  · subst hsource
    exact (hfrom source₁).flatten
  · -- what the one sender put in has no words, or it would be the other
    have hempty : (log₁.depositsFrom source₁ i).flatten = [] := by
      refine List.flatten_eq_nil_iff.mpr fun block hblock => ?_
      obtain ⟨deposit, hdeposit, rfl⟩ := List.mem_map.mp ((hfrom source₁).subset hblock)
      obtain ⟨hmem, hfilter⟩ := List.mem_filter.mp hdeposit
      by_contra hne
      exact hsource ((of_decide_eq_true hfilter).symm.trans (h₂ deposit hmem hne))
    rw [hempty]
    exact List.nil_prefix

/-- While nodes act in one way, every mailbox has got the beginning of what it gets in another way until
nothing is left to do. -/
theorem pushed_isPrefix (hstart : start = ofProgram program n options)
    (hfallback : options.fallback = none) {actions₁ actions₂ : List Action}
    (hopen₁ : ∀ action ∈ actions₁, action.LeavesOpen)
    (hsingle₁ : (start.log actions₁).SingleSender start.nodes.size)
    (h₂ : start.Exhausts actions₂)
    (hsingle₂ : (start.log actions₂).SingleSender start.nodes.size)
    (hsends : ∀ i < start.nodes.size,
      actions₁.filterMap (Action.sent? i) <+: actions₂.filterMap (Action.sent? i))
    {i : Nat} (hi : i < start.nodes.size) :
    (start.log actions₁).pushed i <+: (start.log actions₂).pushed i := by
  -- along the first way; the last action puts in what its sender puts in the second way as well
  induction actions₁ using List.reverseRecOn generalizing i with
  | nil => exact List.nil_prefix
  | append_singleton actions action ih =>
    have hinit {j : Nat} (hj : j < start.nodes.size) :
        (start.log actions).pushed j <+: (start.log actions₂).pushed j := by
      refine ih (fun action haction => hopen₁ action (List.mem_append_left _ haction)) ?_ ?_ hj
      · rw [log_concat] at hsingle₁
        exact hsingle₁.of_append
      · intro k hk
        refine List.IsPrefix.trans ?_ (hsends k hk)
        rw [List.filterMap_append]
        exact List.prefix_append _ _
    have hof (j : Nat) :
        (start.log (actions ++ [action])).of j <+: (start.log actions₂).of j := by
      refine of_isPrefix hstart hfallback hopen₁ h₂ fun hj => ?_
      exact (taken_concat_isPrefix hstart hj actions action).trans (hinit hj)
    obtain ⟨source₁, hsource₁⟩ := hsingle₁ i hi
    obtain ⟨source₂, hsource₂⟩ := hsingle₂ i hi
    refine Log.pushed_isPrefix hsource₁ hsource₂ fun source => ?_
    -- the supervisor's blocks are given, and those of a node are part of what it has done
    cases source with
    | none =>
      rw [depositsFrom_none hi, depositsFrom_none hi]
      exact hsends i hi
    | some j =>
      rw [Log.depositsFrom_some, Log.depositsFrom_some]
      exact (((hof j).filterMap _).filter _).map _

/-- In two ways to act until nothing is left to do, every mailbox gets the same words. -/
theorem pushed_eq (hstart : start = ofProgram program n options)
    (hfallback : options.fallback = none) {actions₁ actions₂ : List Action}
    (h₁ : start.Exhausts actions₁) (h₂ : start.Exhausts actions₂)
    (hsingle₁ : (start.log actions₁).SingleSender start.nodes.size)
    (hsingle₂ : (start.log actions₂).SingleSender start.nodes.size)
    (hsends : ∀ i < start.nodes.size,
      actions₁.filterMap (Action.sent? i) = actions₂.filterMap (Action.sent? i))
    {i : Nat} (hi : i < start.nodes.size) :
    (start.log actions₁).pushed i = (start.log actions₂).pushed i := by
  -- each way is the beginning of the other
  have hle := pushed_isPrefix hstart hfallback h₁.leavesOpen hsingle₁ h₂ hsingle₂
    (fun i hi => hsends i hi ▸ List.prefix_rfl) hi
  have hge := pushed_isPrefix hstart hfallback h₂.leavesOpen hsingle₂ h₁ hsingle₁
    (fun i hi => hsends i hi ▸ List.prefix_rfl) hi
  exact hle.sublist.antisymm hge.sublist

/-- If every mailbox gets the same words, every node does the same. -/
theorem of_eq (hstart : start = ofProgram program n options)
    (hfallback : options.fallback = none) {actions₁ actions₂ : List Action}
    (h₁ : start.Exhausts actions₁) (h₂ : start.Exhausts actions₂)
    (hpushed : ∀ i < start.nodes.size,
      (start.log actions₁).pushed i = (start.log actions₂).pushed i) (i : Nat) :
    (start.log actions₁).of i = (start.log actions₂).of i := by
  have hle := of_isPrefix hstart hfallback h₁.leavesOpen h₂ fun hi => by
    rw [← hpushed i hi]
    exact taken_isPrefix hstart hi actions₁
  have hge := of_isPrefix hstart hfallback h₂.leavesOpen h₁ fun hi => by
    rw [hpushed i hi]
    exact taken_isPrefix hstart hi actions₂
  exact hle.sublist.antisymm hge.sublist

/-- If what a node has done and what its mailbox has got are the same, so are the machine and the words
that the node has. -/
theorem node_agrees (hstart : start = ofProgram program n options)
    (hfallback : options.fallback = none) {actions₁ actions₂ : List Action}
    (hopen₁ : ∀ action ∈ actions₁, action.LeavesOpen)
    (hopen₂ : ∀ action ∈ actions₂, action.LeavesOpen) {i : Nat} {node₁ node₂ : Node}
    (hnode₁ : (start.perform actions₁).nodes[i]? = some node₁)
    (hnode₂ : (start.perform actions₂).nodes[i]? = some node₂)
    (hof : (start.log actions₁).of i = (start.log actions₂).of i)
    (hpushed : (start.log actions₁).pushed i = (start.log actions₂).pushed i) :
    node₁.machine = node₂.machine ∧ node₁.packet = node₂.packet ∧
      node₁.mailbox.words = node₂.mailbox.words := by
  have hcore : node₁.core = node₂.core := by
    rw [(waits_perform hstart hfallback hopen₁ hnode₁).core_eq, hof,
      (waits_perform hstart hfallback hopen₂ hnode₂).core_eq]
  have hmachine : node₁.core.machine = node₂.core.machine := by rw [hcore]
  have hpacket : node₁.core.packet = node₂.core.packet := by rw [hcore]
  have htaken₁ := (balanced_perform hstart hnode₁).taken_eq
  have htaken₂ := (balanced_perform hstart hnode₂).taken_eq
  rw [hof, hpushed, ← htaken₂] at htaken₁
  exact ⟨hmachine, hpacket, List.append_cancel_left htaken₁⟩

/-- Networks that started alike show the same of node `i` if they do whenever they have that node. -/
theorem map_getElem?_nodes_congr {α : Type} {f : Node → α} {actions₁ actions₂ : List Action} {i : Nat}
    (h : i < start.nodes.size → ∀ {node₁ node₂ : Node},
      (start.perform actions₁).nodes[i]? = some node₁ →
      (start.perform actions₂).nodes[i]? = some node₂ → f node₁ = f node₂) :
    (start.perform actions₁).nodes[i]?.map f = (start.perform actions₂).nodes[i]?.map f := by
  by_cases hi : i < start.nodes.size
  · obtain ⟨node₁, hnode₁⟩ := exists_node hi actions₁
    obtain ⟨node₂, hnode₂⟩ := exists_node hi actions₂
    rw [hnode₁, hnode₂, Option.map_some, Option.map_some, h hi hnode₁ hnode₂]
  · have hnone (actions : List Action) : (start.perform actions).nodes[i]? = none := by
      rw [Array.getElem?_eq_none_iff, size_nodes_perform]
      exact Nat.not_lt.mp hi
    rw [hnone, hnone]

theorem Exhausts.rests {actions : List Action} (h : start.Exhausts actions)
    (hstart : start = ofProgram program n options) (hfallback : options.fallback = none) :
    (start.perform actions).Rests := by
  refine ⟨?_, fun i node hnode => ⟨h.stalled i node hnode, ?_⟩⟩
  · rw [options_perform, hstart]
    exact hfallback
  · exact (balanced_perform hstart hnode).regular.not_answered

/-- **The result of a network of waiting nodes does not depend on the order of their turns.** Take two
ways to act, of which neither closes a mailbox and both leave nothing to do, which send the same blocks
to each node, and in which every mailbox gets its words from one sender. Then every node has put out
the same words and is left with the same machine, the same words to be sent and the same words in its
mailbox; the same packets of it have left the network; and the network can be shut down, in any order,
with the fault of the first node that has one and with no other answer, which is the same for both. -/
theorem exhausting_actions_agree (program : Program) (n : Nat) (options : Options)
    (hfallback : options.fallback = none) {actions₁ actions₂ : List Action}
    (h₁ : Exhausts (ofProgram program n options) actions₁)
    (h₂ : Exhausts (ofProgram program n options) actions₂)
    (hsingle₁ : ((ofProgram program n options).log actions₁).SingleSender n)
    (hsingle₂ : ((ofProgram program n options).log actions₂).SingleSender n)
    (hsends : ∀ i < n, actions₁.filterMap (Action.sent? i) = actions₂.filterMap (Action.sent? i)) :
    let start := ofProgram program n options
    let net₁ := start.perform actions₁
    let net₂ := start.perform actions₂
    let log₁ := start.log actions₁
    let log₂ := start.log actions₂
    (∀ i : Nat,
      log₁.outputs i = log₂.outputs i ∧
      net₁.nodes[i]?.map Node.machine = net₂.nodes[i]?.map Node.machine ∧
      net₁.nodes[i]?.map Node.packet = net₂.nodes[i]?.map Node.packet ∧
      net₁.nodes[i]?.map (Mailbox.words ∘ Node.mailbox) =
        net₂.nodes[i]?.map (Mailbox.words ∘ Node.mailbox) ∧
      (log₁.received ++ net₁.external).filter (fun packet => packet.sender = i) =
        (log₂.received ++ net₂.external).filter fun packet => packet.sender = i) ∧
    net₁.fault? = net₂.fault? ∧
    (∀ value, (net₁.ShutsDown value ↔ value = net₁.fault?) ∧
      (net₂.ShutsDown value ↔ value = net₁.fault?)) ∧
    ∀ {fuel₁ fuel₂ : Nat} {last₁ last₂ : Network}, net₁.shutdown fuel₁ = some last₁ →
      net₂.shutdown fuel₂ = some last₂ → last₁.fault? = last₂.fault? := by
  intro start net₁ net₂ log₁ log₂
  have hsize : start.nodes.size = n := size_nodes_ofProgram program n options
  have hsingle₁' : log₁.SingleSender start.nodes.size := by rwa [hsize]
  have hsingle₂' : log₂.SingleSender start.nodes.size := by rwa [hsize]
  have hsends' : ∀ i < start.nodes.size,
      actions₁.filterMap (Action.sent? i) = actions₂.filterMap (Action.sent? i) := by rwa [hsize]
  have hpushed : ∀ i < start.nodes.size, log₁.pushed i = log₂.pushed i :=
    fun i hi => pushed_eq rfl hfallback h₁ h₂ hsingle₁' hsingle₂' hsends' hi
  have hof : ∀ i, log₁.of i = log₂.of i := of_eq rfl hfallback h₁ h₂ hpushed
  have hnodes {i : Nat} (hi : i < start.nodes.size) {node₁ node₂ : Node}
      (hnode₁ : net₁.nodes[i]? = some node₁) (hnode₂ : net₂.nodes[i]? = some node₂) :
      node₁.machine = node₂.machine ∧ node₁.packet = node₂.packet ∧
        node₁.mailbox.words = node₂.mailbox.words :=
    node_agrees rfl hfallback h₁.leavesOpen h₂.leavesOpen hnode₁ hnode₂ (hof i) (hpushed i hi)
  have hmachines (i : Nat) : net₁.nodes[i]?.map Node.machine = net₂.nodes[i]?.map Node.machine :=
    map_getElem?_nodes_congr fun hi _ _ hnode₁ hnode₂ => (hnodes hi hnode₁ hnode₂).1
  have hfault : net₁.fault? = net₂.fault? := fault?_congr hmachines
  have hrests₁ : net₁.Rests := h₁.rests rfl hfallback
  have hrests₂ : net₂.Rests := h₂.rests rfl hfallback
  refine ⟨fun i => ⟨?_, hmachines i, ?_, ?_, ?_⟩, hfault, fun value => ⟨?_, ?_⟩, ?_⟩
  · rw [Log.outputs, hof i]
    rfl
  · exact map_getElem?_nodes_congr fun hi _ _ hnode₁ hnode₂ => (hnodes hi hnode₁ hnode₂).2.1
  · exact map_getElem?_nodes_congr fun hi _ _ hnode₁ hnode₂ => (hnodes hi hnode₁ hnode₂).2.2
  · rw [external_perform rfl, external_perform rfl, Log.filter_departed, Log.filter_departed,
      Log.packets, Log.packets, hof i]
  · exact hrests₁.shutsDown_iff value
  · rw [hfault]
    exact hrests₂.shutsDown_iff value
  · intro fuel₁ fuel₂ last₁ last₂ hlast₁ hlast₂
    rw [hrests₁.fault?_shutdown hlast₁, hrests₂.fault?_shutdown hlast₂, hfault]

/-- Two nodes, of which the first sends a word to the second and ends; the second sends on what it gets
and waits for more. It may be asked for a word after it was sent one, or before. -/
theorem exhausting_actions_agree_pair :
    let program : Program :=
      ⟨[3, 100, 1005, 100, 10, 104, 1, 104, 7, 99, 3, 101, 104, 9, 4, 101, 3, 102]⟩
    let start := ofProgram program 2 ⟨2, none, 1, {}⟩
    let actions₁ := List.replicate 7 (.turn 0) ++ List.replicate 11 (.turn 1)
    let actions₂ := List.replicate 7 (.turn 1) ++ List.replicate 7 (.turn 0) ++
      List.replicate 9 (.turn 1) ++ [.receive]
    (Exhausts start actions₁ ∧ (start.log actions₁).SingleSender 2 ∧
      Exhausts start actions₂ ∧ (start.log actions₂).SingleSender 2) ∧
    (start.log actions₁).outputs 1 = (start.log actions₂).outputs 1 ∧
    (start.log actions₁).outputs 1 = [9, 7] ∧
    (start.perform actions₁).nodes[1]?.map Node.machine =
      (start.perform actions₂).nodes[1]?.map Node.machine := by
  intro program start actions₁ actions₂
  have hopen₁ : ∀ action ∈ actions₁, action.LeavesOpen := by
    intro action haction i
    simp only [actions₁, List.mem_append, List.mem_replicate] at haction
    rcases haction with ⟨-, rfl⟩ | ⟨-, rfl⟩ <;> rfl
  have hopen₂ : ∀ action ∈ actions₂, action.LeavesOpen := by
    intro action haction i
    simp only [actions₂, List.mem_append, List.mem_replicate, List.mem_singleton] at haction
    rcases haction with ((⟨-, rfl⟩ | ⟨-, rfl⟩) | ⟨-, rfl⟩) | rfl <;> rfl
  have hexhausts {actions : List Action} (hopen : ∀ action ∈ actions, action.LeavesOpen)
      (h : (start.perform actions).nodes.all Node.isStalled = true) : Exhausts start actions :=
    ⟨hopen, fun i node hnode => Array.all_eq_true_iff_forall_mem.mp h node (Array.mem_of_getElem? hnode)⟩
  have hsingle {log : Log} (hzero : log.deposits 0 = [])
      (hone : log.deposits 1 = [⟨some 0, [7]⟩]) : log.SingleSender 2 := by
    intro i hi
    refine ⟨some 0, fun deposit hdeposit _ => ?_⟩
    rcases Nat.le_one_iff_eq_zero_or_eq_one.mp (Nat.le_of_lt_succ hi) with rfl | rfl
    · rw [hzero] at hdeposit
      cases hdeposit
    · rw [hone] at hdeposit
      rw [List.mem_singleton.mp hdeposit]
  have h₁ : Exhausts start actions₁ := hexhausts hopen₁ (by decide +kernel)
  have h₂ : Exhausts start actions₂ := hexhausts hopen₂ (by decide +kernel)
  have hsingle₁ : (start.log actions₁).SingleSender 2 :=
    hsingle (by decide +kernel) (by decide +kernel)
  have hsingle₂ : (start.log actions₂).SingleSender 2 :=
    hsingle (by decide +kernel) (by decide +kernel)
  obtain ⟨hnodes, -⟩ := exhausting_actions_agree program 2 ⟨2, none, 1, {}⟩ rfl h₁ h₂ hsingle₁
    hsingle₂ (by decide +kernel)
  obtain ⟨houtputs, hmachines, -⟩ := hnodes 1
  exact ⟨⟨h₁, hsingle₁, h₂, hsingle₂⟩, houtputs, by decide +kernel, hmachines⟩

end Intcode.Network
