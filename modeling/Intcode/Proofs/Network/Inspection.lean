import Intcode.Proofs.Network.Idle

/-!
# Telling that a network is idle

Whether all nodes are idle is judged under the locks of all mailboxes. They are taken one after the
other, while the nodes go on; what touches a mailbox whose lock is taken has to wait. An `Inspection`
is a network together with how far such an inspection has come, and its moves are those of the
inspection and the actions that do not have to wait. Undisturbed, it answers `Network.isIdle`
(`exists_run_inspect`).

## Shape of the proof

From the moment at which the last lock was taken no mailbox changes until it is judged
(`Inspection.Sees.move`), so an answer that all are idle is about that moment. A node whose mailbox
is idle is waiting at its input instruction, so at that moment no node had anything left to do; and from
there on nothing happens until the supervisor sends something.
-/

namespace Intcode

/-! ## Touching a mailbox -/

/-- Whether node `j`, being this one, needs the lock of the mailbox of node `i` for its next turn. -/
def Node.touches (arity j i : Nat) (node : Node) : Bool :=
  match node.phase with
  | .reading _ => j = i
  | .delivering =>
    match node.completePacket? arity with
    | some (dest, _) => dest = i
    | none => false
  | .executing | .ended => false

/-- A node that touches no mailbox but others leaves its own alone. -/
theorem Node.mailbox_act {arity i : Nat} {node : Node} (h : node.touches arity i i = false)
    (fallback : Option Word) (stopping : Bool) :
    (node.act arity fallback stopping).mailbox = node.mailbox := by
  rw [touches] at h
  rw [act]
  rcases hphase : node.phase with _ | _ | stage | _
  case executing => exact mailbox_execute node
  case delivering =>
    simp only
    split <;> rfl
  case reading =>
    rw [hphase] at h
    exact absurd rfl (of_decide_eq_false h)
  case ended => rfl

namespace Network

/-- Whether an action needs the lock of the mailbox of node `i`. -/
def touches (net : Network) (i : Nat) : Action → Bool
  | .turn j => net.nodes[j]?.any (Node.touches net.arity j i)
  | .send j _ | .close j => j = i
  | .stop => true
  | .receive => false

/-- Nothing is put into a mailbox that is not touched. -/
theorem deposit?_of_touches {net : Network} {action : Action} {i : Nat}
    (h : net.touches i action = false) : (net.event? action).bind (Event.deposit? i) = none := by
  cases action with
  | turn j =>
    rcases hnode : net.nodes[j]? with _ | node
    · rw [event?, hnode]
      rfl
    · rw [touches, hnode, Option.any_some, Node.touches] at h
      rw [event?_turn hnode, Node.event?]
      rcases hphase : node.phase with _ | _ | stage | _
      case executing => rfl
      case delivering =>
        rw [hphase] at h
        rcases hpacket : node.completePacket? net.arity with _ | ⟨dest, payload⟩
        · rfl
        · rw [hpacket] at h
          exact if_neg (of_decide_eq_false h)
      case reading =>
        rcases stage with _ | _ | word
        · rcases node.mailbox.words with _ | ⟨word, words⟩ <;> rfl
        · rcases node.mailbox.closed with _ | _
          · rcases net.options.fallback with _ | word <;> rfl
          · rfl
        · rfl
      case ended => rfl
  | send j payload =>
    rw [event?]
    split
    · exact if_neg (of_decide_eq_false h)
    · rfl
  | receive =>
    rw [event?]
    rcases net.receive.1 with _ | packet <;> rfl
  | close j => rfl
  | stop => rfl

/-- An action changes no mailbox that it does not touch. -/
theorem mailbox_change {net : Network} {action : Action} {i : Nat} {node : Node}
    (hnode : net.nodes[i]? = some node) (h : net.touches i action = false) :
    (net.change action i node).mailbox = node.mailbox := by
  have hcloses : action.closes i = false := by
    cases action with
    | close j => exact h
    | stop => cases h
    | turn j | send j payload | receive => rfl
  have hturned : (net.turned action i node).mailbox = node.mailbox := by
    rw [turned]
    split
    · next hturn =>
      rw [hturn, touches, hnode, Option.any_some] at h
      exact Node.mailbox_act h _ _
    · rfl
  rw [change, hcloses, deposit?_of_touches h, deposited_none]
  exact hturned

/-! ## Inspections -/

/-- How far an inspection has come. -/
inductive Inspection.Stage where
  /-- It has taken the locks of the first mailboxes. -/
  | locking (held : Nat)
  /-- It has taken all locks and found the first mailboxes idle. -/
  | judging (found : Nat)
  /-- It has answered and released all locks. -/
  | answered (idle : Bool)
  deriving DecidableEq

/-- A network under inspection. -/
structure Inspection where
  net : Network
  stage : Inspection.Stage

/-- What can happen during an inspection. -/
inductive Inspection.Move where
  /-- The inspection takes the next lock or judges the next mailbox. -/
  | inspect
  /-- Something happens in the network. -/
  | act (action : Action)

namespace Inspection

/-- An inspection that has taken no lock yet. -/
def start (net : Network) : Inspection :=
  ⟨net, .locking 0⟩

/-- Whether the inspection holds the lock of the mailbox of node `i`. -/
def holds (s : Inspection) (i : Nat) : Bool :=
  match s.stage with
  | .locking held => i < held
  | .judging _ => true
  | .answered _ => false

/-- The inspection takes the next lock or judges the next mailbox. -/
def proceed (s : Inspection) : Inspection :=
  match s.stage with
  | .locking held =>
    if held < s.net.nodes.size then { s with stage := .locking (held + 1) }
    else { s with stage := .judging 0 }
  | .judging found =>
    match s.net.nodes[found]? with
    | none => { s with stage := .answered true }
    | some node =>
      if node.mailbox.isIdle s.net.options.idleThreshold then
        { s with stage := .judging (found + 1) }
      else { s with stage := .answered false }
  | .answered _ => s

/-- The next move, unless it has to wait for a lock. -/
def move (s : Inspection) : Move → Option Inspection
  | .inspect => some s.proceed
  | .act action =>
    if (List.range s.net.nodes.size).any fun i => s.holds i && s.net.touches i action then none
    else some { s with net := s.net.act action }

/-- Moves one after the other, unless one of them has to wait. -/
def run (s : Inspection) (moves : List Move) : Option Inspection :=
  moves.foldlM move s

/-- The actions among some moves. -/
def Move.action? : Move → Option Action
  | .inspect => none
  | .act action => some action

theorem run_cons (s : Inspection) (first : Move) (moves : List Move) :
    s.run (first :: moves) = (s.move first).bind fun next => next.run moves :=
  List.foldlM_cons

theorem run_cons_eq_some_iff {s last : Inspection} {first : Move} {moves : List Move} :
    s.run (first :: moves) = some last ↔
      ∃ next, s.move first = some next ∧ next.run moves = some last := by
  rw [run_cons, Option.bind_eq_some_iff]

theorem run_append (s : Inspection) (before after : List Move) :
    s.run (before ++ after) = (s.run before).bind fun next => next.run after :=
  List.foldlM_append

@[simp] theorem net_proceed (s : Inspection) : s.proceed.net = s.net := by
  rw [proceed]
  split
  · split <;> rfl
  · split
    · rfl
    · split <;> rfl
  · rfl

/-- An action that does not have to wait touches no mailbox whose lock is held. -/
theorem move_act_eq_some {s next : Inspection} {action : Action}
    (h : s.move (.act action) = some next) :
    next = { s with net := s.net.act action } ∧
      ∀ i < s.net.nodes.size, s.holds i = true → s.net.touches i action = false := by
  rw [move] at h
  split at h
  · cases h
  · next hfree =>
    cases h
    refine ⟨rfl, fun i hi hholds => ?_⟩
    by_contra htouches
    refine hfree (List.any_eq_true.mpr ⟨i, List.mem_range.mpr hi, ?_⟩)
    rw [hholds, Bool.true_and]
    exact Bool.of_not_eq_false htouches

/-- What every move keeps holds after all moves. -/
theorem run_induction (P : Inspection → Prop) {moves : List Move}
    (hmove : ∀ move ∈ moves, ∀ s next : Inspection, P s → s.move move = some next → P next)
    {s last : Inspection} (hrun : s.run moves = some last) (h : P s) : P last := by
  induction moves generalizing s with
  | nil =>
    cases hrun
    exact h
  | cons first moves ih =>
    obtain ⟨next, hnext, hrest⟩ := run_cons_eq_some_iff.mp hrun
    have hfirst := hmove first List.mem_cons_self s next h hnext
    exact ih (fun move hmem => hmove move (List.mem_cons_of_mem _ hmem)) hrest hfirst

/-- An inspection looks and changes nothing. -/
theorem net_run {s last : Inspection} {moves : List Move} (h : s.run moves = some last) :
    last.net = s.net.perform (moves.filterMap Move.action?) := by
  induction moves generalizing s with
  | nil =>
    cases h
    rfl
  | cons first moves ih =>
    obtain ⟨next, hnext, hrest⟩ := run_cons_eq_some_iff.mp h
    rw [ih hrest]
    cases first with
    | inspect =>
      cases hnext
      rw [net_proceed]
      rfl
    | act action =>
      obtain ⟨rfl, -⟩ := move_act_eq_some hnext
      rfl

/-- What holds of all actions that were moves holds of all actions. -/
theorem forall_mem_filterMap {moves : List Move} {P : Action → Prop}
    (h : ∀ action, .act action ∈ moves → P action) :
    ∀ action ∈ moves.filterMap Move.action?, P action := by
  intro action hmem
  obtain ⟨move, hmove, haction⟩ := List.mem_filterMap.mp hmem
  cases move with
  | inspect => cases haction
  | act action' =>
    cases haction
    exact h action hmove

/-! ## Undisturbed inspections -/

theorem run_replicate_succ (s : Inspection) (k : Nat) :
    s.run (List.replicate (k + 1) .inspect) = s.proceed.run (List.replicate k .inspect) := by
  rw [List.replicate_succ, run_cons]
  rfl

/-- Left alone with all locks, an inspection answers whether the mailboxes are idle that it did not judge
yet. -/
theorem exists_run_judging (net : Network) (found : Nat) :
    ∃ k, run ⟨net, .judging found⟩ (List.replicate k .inspect) =
      some ⟨net, .answered ((net.nodes.toList.drop found).all fun node =>
        node.mailbox.isIdle net.options.idleThreshold)⟩ := by
  induction hleft : net.nodes.size - found generalizing found with
  | zero =>
    have hle : net.nodes.toList.length ≤ found := Nat.le_of_sub_eq_zero hleft
    refine ⟨1, ?_⟩
    rw [run_replicate_succ, proceed, List.drop_eq_nil_of_le hle]
    simp only [Array.getElem?_eq_none hle]
    rfl
  | succ left ih =>
    have hlt : found < net.nodes.size := by omega
    obtain ⟨k, hk⟩ := ih (found + 1) (by omega)
    have hdrop : net.nodes.toList.drop found =
        net.nodes[found] :: net.nodes.toList.drop (found + 1) := List.drop_eq_getElem_cons hlt
    rw [hdrop, List.all_cons]
    cases hidle : net.nodes[found].mailbox.isIdle net.options.idleThreshold with
    | true =>
      refine ⟨k + 1, ?_⟩
      rw [run_replicate_succ, proceed]
      simp only [Array.getElem?_eq_getElem hlt, hidle, if_true, hk, Bool.true_and]
    | false =>
      refine ⟨1, ?_⟩
      rw [run_replicate_succ, proceed]
      simp only [Array.getElem?_eq_getElem hlt, hidle, Bool.false_eq_true, if_false,
        Bool.false_and]
      rfl

/-- Left alone, an inspection answers whether all mailboxes are idle. -/
theorem exists_run_inspect (net : Network) :
    ∃ k, (start net).run (List.replicate k .inspect) = some ⟨net, .answered net.isIdle⟩ := by
  have hlocking (left held : Nat) (hleft : net.nodes.size - held = left) :
      ∃ k, run ⟨net, .locking held⟩ (List.replicate k .inspect) =
        some ⟨net, .answered net.isIdle⟩ := by
    induction left generalizing held with
    | zero =>
      obtain ⟨k, hk⟩ := exists_run_judging net 0
      refine ⟨k + 1, ?_⟩
      rw [run_replicate_succ, proceed, isIdle, Mailbox.allIdle, List.all_map]
      simp only [if_neg (Nat.not_lt.mpr (Nat.le_of_sub_eq_zero hleft))]
      exact hk
    | succ left ih =>
      obtain ⟨k, hk⟩ := ih (held + 1) (by omega)
      refine ⟨k + 1, ?_⟩
      rw [run_replicate_succ, proceed]
      simp only [if_pos (show held < net.nodes.size by omega)]
      exact hk
  exact hlocking _ 0 rfl

/-! ## What an inspection has seen -/

/-- An answer is final. -/
theorem stage_run_of_answered {s last : Inspection} {moves : List Move} {idle : Bool}
    (h : s.stage = .answered idle) (hrun : s.run moves = some last) :
    last.stage = .answered idle := by
  refine run_induction (fun s => s.stage = .answered idle) ?_ hrun h
  intro move _ s next hstage hnext
  cases move with
  | inspect =>
    cases hnext
    rw [proceed, hstage]
    exact hstage
  | act action =>
    obtain ⟨rfl, -⟩ := move_act_eq_some hnext
    exact hstage

/-- Before it answers, an inspection has taken all locks. -/
theorem exists_locked {s last : Inspection} {moves : List Move} {held : Nat} {idle : Bool}
    (hstage : s.stage = .locking held) (hle : held ≤ s.net.nodes.size)
    (hrun : s.run moves = some last) (hanswered : last.stage = .answered idle) :
    ∃ before after locked, moves = before ++ after ∧ s.run before = some locked ∧
      locked.stage = .locking s.net.nodes.size := by
  induction moves generalizing s held with
  | nil =>
    cases hrun
    rw [hstage] at hanswered
    cases hanswered
  | cons first moves ih =>
    rcases Nat.eq_or_lt_of_le hle with rfl | hlt
    · exact ⟨[], first :: moves, s, rfl, rfl, hstage⟩
    · obtain ⟨next, hnext, hrest⟩ := run_cons_eq_some_iff.mp hrun
      have hlater : ∃ held, next.stage = .locking held ∧ held ≤ s.net.nodes.size ∧
          next.net.nodes.size = s.net.nodes.size := by
        cases first with
        | inspect =>
          cases hnext
          refine ⟨held + 1, ?_, hlt, by rw [net_proceed]⟩
          rw [proceed, hstage]
          simp only [if_pos hlt]
        | act action =>
          obtain ⟨rfl, -⟩ := move_act_eq_some hnext
          exact ⟨held, hstage, hle, size_nodes_act _ _⟩
      obtain ⟨held', hstage', hle', hsize⟩ := hlater
      obtain ⟨before, after, locked, rfl, hbefore, hlocked⟩ :=
        ih hstage' (hsize ▸ hle') hrest
      exact ⟨first :: before, after, locked, rfl,
        run_cons_eq_some_iff.mpr ⟨next, hnext, hbefore⟩, hsize ▸ hlocked⟩

/-- The inspection holds the locks of all mailboxes, and the mailbox of node `i` was not judged yet. -/
def Sees (s : Inspection) (i : Nat) : Prop :=
  s.stage = .locking s.net.nodes.size ∨ ∃ found, s.stage = .judging found ∧ found ≤ i

theorem Sees.holds {s : Inspection} {i : Nat} (h : s.Sees i) {j : Nat}
    (hj : j < s.net.nodes.size) : s.holds j = true := by
  rcases h with h | ⟨found, h, -⟩
  · rw [Inspection.holds, h]
    exact decide_eq_true hj
  · rw [Inspection.holds, h]

/-- While all locks are held, a mailbox that was not judged yet stays so and does not change, until it
is found idle or the inspection answers that one is not. -/
theorem Sees.move {s next : Inspection} {i : Nat} {move : Move} {node : Node} (h : s.Sees i)
    (hnode : s.net.nodes[i]? = some node) (hnext : s.move move = some next) :
    node.mailbox.isIdle s.net.options.idleThreshold = true ∨ next.stage = .answered false ∨
      next.Sees i ∧ next.net.options = s.net.options ∧
        ∃ node', next.net.nodes[i]? = some node' ∧ node'.mailbox = node.mailbox := by
  obtain ⟨hi, -⟩ := Array.getElem?_eq_some_iff.mp hnode
  cases move with
  | act action =>
    -- an action that would touch the mailbox has to wait
    obtain ⟨rfl, hfree⟩ := move_act_eq_some hnext
    refine Or.inr (Or.inr ⟨?_, options_act _ _, s.net.change action i node, ?_, ?_⟩)
    · rwa [Sees, size_nodes_act]
    · rw [getElem?_nodes_act, hnode]
      rfl
    · exact mailbox_change hnode (hfree i hi (h.holds hi))
  | inspect =>
    cases hnext
    have hstays (hsees : s.proceed.Sees i) : s.proceed.Sees i ∧
        s.proceed.net.options = s.net.options ∧
        ∃ node', s.proceed.net.nodes[i]? = some node' ∧ node'.mailbox = node.mailbox :=
      ⟨hsees, by rw [net_proceed], node, by rwa [net_proceed], rfl⟩
    rcases h with h | ⟨found, h, hle⟩
    · -- all locks are taken, so judging begins with the first mailbox
      refine Or.inr (Or.inr (hstays (Or.inr ⟨0, ?_, Nat.zero_le i⟩)))
      simp only [proceed, h, if_neg (Nat.lt_irrefl _)]
    · obtain ⟨judged, hjudged⟩ : ∃ judged, s.net.nodes[found]? = some judged :=
        ⟨_, Array.getElem?_eq_getElem (Nat.lt_of_le_of_lt hle hi)⟩
      cases hverdict : judged.mailbox.isIdle s.net.options.idleThreshold with
      | false =>
        refine Or.inr (Or.inl ?_)
        simp only [proceed, h, hjudged, hverdict, Bool.false_eq_true, if_false]
      | true =>
        rcases Nat.eq_or_lt_of_le hle with rfl | hlt
        · obtain rfl : node = judged := Option.some.inj (hnode.symm.trans hjudged)
          exact Or.inl hverdict
        · refine Or.inr (Or.inr (hstays (Or.inr ⟨found + 1, ?_, hlt⟩)))
          simp only [proceed, h, hjudged, hverdict, if_true]

/-- When an inspection answers that all mailboxes are idle, each was idle from the moment on at which
all locks were taken. -/
theorem isIdle_of_run {s last : Inspection} {moves : List Move} (hrun : s.run moves = some last)
    (hidle : last.stage = .answered true) {i : Nat} {node : Node} (h : s.Sees i)
    (hnode : s.net.nodes[i]? = some node) :
    node.mailbox.isIdle s.net.options.idleThreshold = true := by
  induction moves generalizing s node with
  | nil =>
    cases hrun
    rcases h with h | ⟨found, h, -⟩
    · rw [h] at hidle
      cases hidle
    · rw [h] at hidle
      cases hidle
  | cons first moves ih =>
    obtain ⟨next, hnext, hrest⟩ := run_cons_eq_some_iff.mp hrun
    rcases h.move hnode hnext with hnow | hanswered | ⟨hsees, hoptions, node', hnode', hmailbox⟩
    · exact hnow
    · have hcontra := stage_run_of_answered hanswered hrest
      rw [hidle] at hcontra
      cases hcontra
    · have hlater := ih hrest hsees hnode'
      rwa [hmailbox, hoptions] at hlater

/-- Until the supervisor sends something, no inspection finds that a dormant network is not idle. -/
theorem ne_answered_false {s last : Inspection} {moves : List Move} (h : s.net.Dormant)
    (hstage : s.stage ≠ .answered false)
    (hsends : ∀ action, .act action ∈ moves → action.SendsNothing)
    (hrun : s.run moves = some last) : last.stage ≠ .answered false := by
  suffices hlast : last.net.Dormant ∧ last.stage ≠ .answered false from hlast.2
  refine run_induction (fun s => s.net.Dormant ∧ s.stage ≠ .answered false) ?_ hrun ⟨h, hstage⟩
  rintro move hmem s next ⟨hdormant, hstage⟩ hnext
  cases move with
  | inspect =>
    cases hnext
    refine ⟨by rwa [net_proceed], ?_⟩
    rw [proceed]
    split
    · split <;> simp
    · next found _ =>
      split
      · simp
      · next node hnode => simp [(hdormant.node found node hnode).isIdle]
    · exact hstage
  | act action =>
    obtain ⟨rfl, -⟩ := move_act_eq_some hnext
    exact ⟨hdormant.act (hsends action hmem), hstage⟩

end Inspection

/-! ## What an answer means -/

/-- Some actions do not get a network any further: no node executes an instruction, sends a packet or
takes a word, nothing is put into a mailbox, and the network is idle, whether that is judged at once or
by an inspection during which the supervisor sends nothing. -/
structure Sleeps (net : Network) (actions : List Action) : Prop where
  of_eq_nil : ∀ i, (net.log actions).of i = []
  deposits_eq_nil : ∀ i, (net.log actions).deposits i = []
  departed_eq_nil : (net.log actions).departed net.nodes.size = []
  machine_eq : ∀ i : Nat,
    (net.perform actions).nodes[i]?.map Node.machine = net.nodes[i]?.map Node.machine
  words_eq_nil : ∀ (i : Nat) (node : Node), (net.perform actions).nodes[i]? = some node →
    node.mailbox.words = []
  isIdle_eq_true : (net.perform actions).isIdle = true
  inspected : ∀ (moves : List Inspection.Move) (last : Inspection) (idle : Bool),
    (∀ action, .act action ∈ moves → action.SendsNothing) →
    (Inspection.start (net.perform actions)).run moves = some last →
    last.stage = .answered idle → idle = true

/-- A dormant network sleeps until the supervisor sends something. -/
theorem Dormant.sleeps {net : Network} (h : net.Dormant) {actions : List Action}
    (hsends : ∀ action ∈ actions, action.SendsNothing) : net.Sleeps actions := by
  obtain ⟨hdormant, hreceived, hmachines⟩ := h.perform hsends
  have hnone {α : Type} (f : Event → Option α) (hf : ∀ packet, f (.received packet) = none) :
      (net.log actions).filterMap f = [] := by
    refine List.filterMap_eq_nil_iff.mpr fun event hmem => ?_
    obtain ⟨packet, rfl⟩ := hreceived event hmem
    exact hf packet
  refine ⟨fun i => hnone _ fun _ => rfl, fun i => hnone _ fun _ => rfl, hnone _ fun _ => rfl,
    hmachines, fun i node hnode => ?_, hdormant.isIdle_eq_true, ?_⟩
  · have hidle := (hdormant.node i node hnode).isIdle
    rw [Mailbox.isIdle, Bool.and_eq_true, List.isEmpty_iff] at hidle
    exact hidle.1
  · intro moves last idle hmoves hrun hanswered
    have hnot := Inspection.ne_answered_false hdormant (by simp [Inspection.start]) hmoves hrun
    rw [hanswered] at hnot
    simpa using hnot

/-- **An idle network stays idle.** In a network without a fallback, whose mailboxes are open, let an
inspection take the locks of all mailboxes one after the other while the nodes and the supervisor go on,
and answer that all are idle. Then it has come to hold all locks, and since then every node waits at an
input instruction for a word from its empty mailbox, and whatever happens next, nothing does until the
supervisor sends something. -/
theorem idle_answer_is_final {program : Program} {n : Nat} {options : Options}
    (hfallback : options.fallback = none) (hthreshold : 1 ≤ options.idleThreshold)
    {actions : List Action} (hactions : ∀ action ∈ actions, action.LeavesOpen)
    {moves : List Inspection.Move} (hmoves : ∀ action, .act action ∈ moves → action.LeavesOpen)
    {last : Inspection}
    (hrun : (Inspection.start ((ofProgram program n options).perform actions)).run moves = some last)
    (hidle : last.stage = .answered true) :
    (∃ before after locked, moves = before ++ after ∧
      (Inspection.start ((ofProgram program n options).perform actions)).run before = some locked ∧
      locked.stage = .locking n) ∧
    ∀ (before after : List Inspection.Move) (locked : Inspection), moves = before ++ after →
      (Inspection.start ((ofProgram program n options).perform actions)).run before = some locked →
      locked.stage = .locking n →
      locked.net.Waiting ∧
        ∀ later : List Action, (∀ action ∈ later, action.SendsNothing) →
          locked.net.Sleeps later := by
  have hsize (actions : List Action) :
      ((ofProgram program n options).perform actions).nodes.size = n := by
    rw [size_nodes_perform, size_nodes_ofProgram]
  constructor
  · obtain ⟨before, after, locked, hsplit, hbefore, hlocked⟩ :=
      Inspection.exists_locked rfl (Nat.zero_le _) hrun hidle
    rw [Inspection.start, hsize] at hlocked
    exact ⟨before, after, locked, hsplit, hbefore, hlocked⟩
  · rintro before after locked rfl hbefore hlocked
    rw [Inspection.run_append, hbefore, Option.bind_some] at hrun
    have hnet := Inspection.net_run hbefore
    rw [Inspection.start, ← perform_append] at hnet
    have hopen := Inspection.forall_mem_filterMap
      (fun action hmem => hmoves action (List.mem_append_left _ hmem))
    have hidleNow : locked.net.isIdle = true := isIdle_eq_true_iff.mpr fun i node hnode =>
      Inspection.isIdle_of_run hrun hidle (Or.inl (by rw [hlocked, hnet, hsize])) hnode
    rw [hnet] at hidleNow ⊢
    obtain ⟨hwaiting, hdormant⟩ := waiting_and_dormant_of_isIdle rfl hfallback hthreshold
      (fun action hmem => (List.mem_append.mp hmem).elim (hactions action) (hopen action)) hidleNow
    exact ⟨hwaiting, fun later hsends => hdormant.sleeps hsends⟩

/-- Two nodes that wait for a word after their address. The second comes to wait only after the lock of
the first one's mailbox was taken. -/
theorem idle_answer_is_final_pair :
    let net := ofProgram ⟨[3, 100, 3, 101, 99]⟩ 2 ⟨1, none, 1, {}⟩
    let before : List Inspection.Move := [.act (.turn 0), .act (.turn 0), .act (.turn 0), .inspect,
      .act (.turn 1), .act (.turn 1), .act (.turn 1), .inspect]
    let after : List Inspection.Move := [.inspect, .inspect, .inspect, .inspect]
    ∃ locked last, (Inspection.start net).run before = some locked ∧ locked.stage = .locking 2 ∧
      (Inspection.start net).run (before ++ after) = some last ∧ last.stage = .answered true ∧
      locked.net.Waiting ∧ locked.net.Sleeps [.turn 0, .receive, .turn 1, .turn 0] := by
  intro net before after
  have hbefore : ((Inspection.start net).run before).map Inspection.stage =
      some (.locking 2) := by decide +kernel
  have hall : ((Inspection.start net).run (before ++ after)).map Inspection.stage =
      some (.answered true) := by decide +kernel
  obtain ⟨locked, hlocked, hstage⟩ := Option.map_eq_some_iff.mp hbefore
  obtain ⟨last, hlast, hanswered⟩ := Option.map_eq_some_iff.mp hall
  have hopen : ∀ action, .act action ∈ before ++ after → action.LeavesOpen := by
    intro action hmem i
    simp only [before, after, List.cons_append, List.nil_append, List.mem_cons,
      List.not_mem_nil, reduceCtorEq, Inspection.Move.act.injEq, or_false, false_or] at hmem
    rcases hmem with rfl | rfl | rfl | rfl | rfl | rfl <;> rfl
  have hnone : ∀ action ∈ ([] : List Action), action.LeavesOpen := by simp
  obtain ⟨-, hfinal⟩ := idle_answer_is_final rfl (Nat.le_refl 1) hnone hopen hlast hanswered
  obtain ⟨hwaiting, hsleeps⟩ := hfinal before after locked rfl hlocked hstage
  exact ⟨locked, last, hlocked, hstage, hlast, hanswered, hwaiting,
    hsleeps _ (by simp [Action.SendsNothing])⟩

end Network

end Intcode
