import Intcode.Proofs.Network.Turn

/-!
# Nodes that wait for their words

A node without a fallback, whose mailbox nobody closes, does nothing but what its machine and its
packet make it do, and takes words when it needs them. What it did so far can be done again without
the network: `Node.follow` leads to the same node up to its mailbox (`Turn.core_eq`), and each event was
the only one that the node offered, but for the word in it (`Offers.eq_or_took`).

So what such a node does is a function of the words that it takes. If two nodes that started alike took
words from the same sequence, and the second has come to a stop with all of them taken, or has ended,
then what the first did is the beginning of what the second did (`isPrefix_of_admits`).
-/

namespace Intcode.Node

variable {arity : Nat}

/-- The node apart from its mailbox. How far it has come in reading does not count. -/
def core (node : Node) : Node where
  machine := node.machine
  mailbox := .empty
  packet := node.packet
  phase :=
    match node.phase with
    | .reading _ => .reading .trying
    | phase => phase

/-- An event is the next that the node may do, if words are there when it reads. -/
def Offers (arity : Nat) (node : Node) (event : Event) : Prop :=
  match node.phase with
  | .reading _ => ∃ word, event = .took word
  | _ => node.event? arity none = some event

/-- Whether the node has ended, or reads while there is nothing to read. -/
def isStalled (node : Node) : Bool :=
  match node.phase with
  | .ended => true
  | .reading _ => node.mailbox.words.isEmpty
  | .executing | .delivering => false

/-- Events may follow on each other from the node on. -/
def Admits (arity : Nat) : Node → List Event → Prop
  | _, [] => True
  | node, event :: events => Offers arity node event ∧ Admits arity (node.follow event) events

theorem offers_of_reading {node : Node} {stage : Reader.Stage} (h : node.phase = .reading stage)
    {event : Event} : Offers arity node event ↔ ∃ word, event = .took word := by
  rw [Offers, h]

theorem not_offers_of_ended {node : Node} (h : node.phase = .ended) (event : Event) :
    ¬ Offers arity node event := by
  simp [Offers, event?, h]

theorem isStalled_iff {node : Node} :
    node.isStalled = true ↔
      node.phase = .ended ∨ node.mailbox.words = [] ∧ ∃ stage, node.phase = .reading stage := by
  rw [isStalled]
  split <;> simp [*]

/-- A node that has nothing left to do could only take another word. -/
theorem Offers.of_isStalled {node : Node} {event : Event} (h : Offers arity node.core event)
    (hstalled : node.isStalled = true) :
    (∃ word, event = .took word) ∧ node.mailbox.words = [] := by
  rcases isStalled_iff.mp hstalled with hphase | ⟨hwords, stage, hphase⟩
  · have hcore : node.core.phase = .ended := by rw [core, hphase]
    exact absurd h (not_offers_of_ended hcore event)
  · have hcore : node.core.phase = .reading .trying := by rw [core, hphase]
    exact ⟨(offers_of_reading hcore).mp h, hwords⟩

/-- Two events that a node offers are the same, or both take a word. -/
theorem Offers.eq_or_took {node : Node} {event₁ event₂ : Event} (h₁ : Offers arity node event₁)
    (h₂ : Offers arity node event₂) :
    event₁ = event₂ ∨ ∃ word₁ word₂, event₁ = .took word₁ ∧ event₂ = .took word₂ := by
  rcases hphase : node.phase with _ | _ | stage | _
  case reading =>
    obtain ⟨word₁, rfl⟩ := (offers_of_reading hphase).mp h₁
    obtain ⟨word₂, rfl⟩ := (offers_of_reading hphase).mp h₂
    exact Or.inr ⟨word₁, word₂, rfl, rfl⟩
  all_goals
    rw [Offers, hphase] at h₁ h₂
    exact Or.inl (Option.some.inj (h₁.symm.trans h₂))

theorem admits_append_iff {node : Node} {events₁ events₂ : List Event} :
    Admits arity node (events₁ ++ events₂) ↔
      Admits arity node events₁ ∧ Admits arity (events₁.foldl follow node) events₂ := by
  induction events₁ generalizing node with
  | nil => exact ⟨fun h => ⟨trivial, h⟩, And.right⟩
  | cons event events₁ ih =>
    show Offers arity node event ∧ Admits arity _ (events₁ ++ events₂) ↔ _
    rw [ih, ← and_assoc]
    rfl

/-! ## Turns of a node that waits -/

/-- Executing an instruction has nothing to do with the mailbox. -/
theorem core_execute {node : Node} (h : node.phase = .executing) :
    node.execute.core = node.core.execute := by
  have hcore : node.core = { node with mailbox := .empty } := by rw [core, h]
  rw [hcore]
  cases hstatus : node.machine.step.status <;>
    simp only [execute, hstatus, core, h, Machine.takeOutput]

/-- What a turn makes of the node apart from its mailbox, the event says. -/
theorem Turn.core_eq {node node' : Node} {event : Option Event}
    (h : Turn arity none false node event node') (hclosed : node.mailbox.closed = false) :
    node'.core = event.toList.foldl Node.follow node.core := by
  cases h with
  | executed hphase => exact core_execute hphase
  | missed hphase hwords =>
    show _ = node.core
    rw [core, core, hphase]
  | gaveUp hphase hclosed' =>
    rw [hclosed] at hclosed'
    cases hclosed'
  | madeDo hphase hclosed hfallback => cases hfallback
  | triedAgain hphase hclosed hfallback =>
    show _ = node.core
    rw [core, core, hphase]
  | _ => rfl

/-- What a node does in its turn, it offered. -/
theorem Turn.admits {node node' : Node} {event : Option Event}
    (h : Turn arity none false node event node') :
    Admits arity node.core event.toList := by
  cases h with
  | executed hphase =>
    refine ⟨?_, trivial⟩
    have hcore : node.core.phase = .executing := by rw [core, hphase]
    rw [Offers, hcore, event?, hcore]
    rfl
  | held hphase hpacket =>
    refine ⟨?_, trivial⟩
    have hcore : node.core.phase = .delivering := by rw [core, hphase]
    have hnone : node.core.completePacket? arity = none := hpacket
    rw [Offers, hcore, event?, hcore, hnone]
  | @routed dest payload hphase hpacket hlength =>
    refine ⟨?_, trivial⟩
    have hcore : node.core.phase = .delivering := by rw [core, hphase]
    have hcomplete : node.core.completePacket? arity = some (dest, payload) :=
      completePacket?_eq_some_iff.mpr ⟨hpacket, hlength⟩
    rw [Offers, hcore, event?, hcore, hcomplete]
  | @took word words hphase hwords =>
    have hcore : node.core.phase = .reading .trying := by rw [core, hphase]
    exact ⟨(offers_of_reading hcore).mpr ⟨word, rfl⟩, trivial⟩
  | madeDo hphase hclosed hfallback => cases hfallback
  | _ => trivial

/-! ## What a node does is determined by the words that it takes -/

private theorem filterMap_taken_cons (event : Event) (events : List Event) :
    (event :: events).filterMap Event.taken? =
      event.taken?.toList ++ events.filterMap Event.taken? := by
  rw [List.filterMap_cons]
  cases event.taken? <;> rfl

/-- Two events that a node offers are the same if the words that they take come from one sequence. -/
theorem Offers.eq_of_isPrefix {node : Node} {event₁ event₂ : Event} {ws₁ ws₂ words : List Word}
    (h₁ : Offers arity node event₁) (h₂ : Offers arity node event₂)
    (htaken₁ : event₁.taken?.toList ++ ws₁ <+: words)
    (htaken₂ : event₂.taken?.toList ++ ws₂ <+: words) : event₁ = event₂ := by
  rcases h₁.eq_or_took h₂ with heq | ⟨word₁, word₂, rfl, rfl⟩
  · exact heq
  · obtain ⟨rest₁, hrest₁⟩ := htaken₁
    obtain ⟨rest₂, hrest₂⟩ := htaken₂
    have hheads := hrest₁.trans hrest₂.symm
    injection hheads with hword
    rw [hword]

/-- What a node has done is the beginning of what another has that started alike, if both took their
words from one sequence and the other cannot go on before it has taken more than that. -/
theorem isPrefix_of_admits {node : Node} {events₁ events₂ : List Event} {words : List Word}
    (h₁ : Admits arity node events₁) (h₂ : Admits arity node events₂)
    (htaken₁ : events₁.filterMap Event.taken? <+: words)
    (htaken₂ : events₂.filterMap Event.taken? <+: words)
    (hlast : ∀ event, Offers arity (events₂.foldl follow node) event →
      ∃ word, event = .took word ∧ events₂.filterMap Event.taken? = words) :
    events₁ <+: events₂ := by
  induction events₁ generalizing node events₂ words with
  | nil => exact List.nil_prefix
  | cons event₁ events₁ ih =>
    obtain ⟨hoffers₁, hadmits₁⟩ := h₁
    rw [filterMap_taken_cons] at htaken₁
    cases events₂ with
    | nil =>
      -- it would have to take a word, and there is none
      obtain ⟨word, rfl, rfl⟩ := hlast event₁ hoffers₁
      have hnil := List.prefix_nil.mp htaken₁
      cases hnil
    | cons event₂ events₂ =>
      obtain ⟨hoffers₂, hadmits₂⟩ := h₂
      rw [filterMap_taken_cons] at htaken₂
      obtain rfl := hoffers₁.eq_of_isPrefix hoffers₂ htaken₁ htaken₂
      obtain ⟨rest, rfl⟩ := (List.prefix_append _ _).trans htaken₁
      rw [List.prefix_append_right_inj] at htaken₁ htaken₂
      refine (List.prefix_cons_inj _).mpr (ih hadmits₁ hadmits₂ htaken₁ htaken₂ ?_)
      intro event hoffers
      obtain ⟨word, hword, hall⟩ := hlast event hoffers
      rw [filterMap_taken_cons] at hall
      exact ⟨word, hword, List.append_cancel_left hall⟩

end Intcode.Node
