import Mathlib.Logic.Function.Iterate
import Intcode.Machine.Run
import Intcode.Proofs.Machine.Ideal

/-!
# Machines in use

A rig is a machine together with the source of input that is attached to it, if there is one. Whoever
holds a rig can change it from outside (`Rig.Edit`) and can have it execute instructions, one or many
(`Rig.Operation`). Sources are of any kind: `ask` is an arbitrary function on the states of one, and
another state may be attached at any time.

However long they take, running and draining are repeated steps (`Operation.Performs.edits_or_steps`).
So what every edit and every step preserve, every sequence of operations preserves
(`Performs.invariant`); where some edits are ruled out, only the others have to preserve it
(`Performs.invariant_of_mem`).
-/

namespace Intcode

namespace Machine

variable {σ : Type} {ask : σ → Option Word × σ} {m : Machine} {s : σ}

/-! ## Runs are steps -/

/-- A run is one or more steps, the last of which does not leave the machine running. -/
theorem stepsWith_of_runWith {fuel : Nat} {r : Machine × σ} (h : m.runWith ask fuel s = some r) :
    ∃ k, m.stepsWith ask (k + 1) s = r ∧ r.1.status ≠ .running := by
  induction fuel generalizing m s with
  | zero => cases h
  | succ fuel ih =>
    rw [runWith] at h
    dsimp only at h
    split at h
    · obtain ⟨k, hsteps, hstatus⟩ := ih h
      exact ⟨k + 1, hsteps, hstatus⟩
    · next hstatus =>
      cases h
      exact ⟨0, rfl, hstatus⟩

/-- Draining is one or more steps, whatever was collected before. -/
theorem stepsWith_of_drainOnto {fuel : Nat} {before outputs : List Word} {r : Machine × σ}
    (h : drainOnto ask before fuel m s = some (outputs, r)) :
    ∃ k, m.stepsWith ask (k + 1) s = r := by
  induction fuel generalizing m s before with
  | zero => cases h
  | succ fuel ih =>
    have hmore {before : List Word}
        (h : drainOnto ask before fuel (m.stepWith ask s).1 (m.stepWith ask s).2 =
          some (outputs, r)) : ∃ k, m.stepsWith ask (k + 1) s = r := by
      obtain ⟨k, hsteps⟩ := ih h
      exact ⟨k + 1, hsteps⟩
    have hend (h : some (before, m.stepWith ask s) = some (outputs, r)) :
        ∃ k, m.stepsWith ask (k + 1) s = r :=
      ⟨0, (Prod.ext_iff.mp (Option.some.inj h)).2⟩
    rw [drainOnto] at h
    cases hs : (m.stepWith ask s).1.status with
    | running => exact hmore (by simpa only [hs] using h)
    | output => exact hmore (by simpa only [hs] using h)
    | awaitingInput => exact hend (by simpa only [hs] using h)
    | halted => exact hend (by simpa only [hs] using h)
    | faulted fault => exact hend (by simpa only [hs] using h)

/-! ## Answers -/

/-- What a call answers after which the machine is `m`: the fault, if there is one, and else its
result. -/
def answer {α : Type} (m : Machine) (result : α) : Except Fault α :=
  match m.fault? with
  | some fault => .error fault
  | none => .ok result

end Machine

/-- A machine with the source of input behind its queue. -/
structure Rig (σ : Type) where
  machine : Machine
  source : Option σ

namespace Rig

variable {σ : Type}

/-- A machine about to execute the first instruction of a program, with nothing attached to it. -/
def ofProgram (program : Program) (config : Config) : Rig σ where
  machine := .ofProgram program config
  source := none

/-- Consults what is attached. Where nothing is, there is no word. -/
def consult (ask : σ → Option Word × σ) : Option σ → Option Word × Option σ
  | none => (none, none)
  | some source =>
    let (word, source) := ask source
    (word, some source)

/-- Executes one instruction. -/
def step (ask : σ → Option Word × σ) (rig : Rig σ) : Rig σ :=
  let (machine, source) := rig.machine.stepWith (consult ask) rig.source
  { machine, source }

/-! ## Operations -/

/-- A change from outside, which executes nothing. -/
inductive Edit (σ : Type) where
  | push (word : Word)
  | extend (words : List Word)
  | pushLine (line : String)
  | takeOutput
  /-- Attaches a source in place of the one before. -/
  | attach (source : σ)
  | detach
  /-- Goes on with a copy of the machine, to which nothing is attached. -/
  | fork
  | write (address value : Word)
  | read (address : Word)

/-- Carries out a change. -/
def Edit.apply : Edit σ → Rig σ → Rig σ
  | push word, rig => { rig with machine := rig.machine.push word }
  | extend words, rig => { rig with machine := rig.machine.extend words }
  | pushLine line, rig => { rig with machine := rig.machine.pushLine line }
  | takeOutput, rig => { rig with machine := rig.machine.takeOutput.2 }
  | attach source, rig => { rig with source := some source }
  | detach, rig => { rig with source := none }
  | fork, rig => { rig with source := none }
  | write address value, rig =>
    { rig with machine.memory := rig.machine.memory.write address value }
  | read address, rig => { rig with machine.memory := (rig.machine.memory.read address).2 }

/-- What can be done with a rig. -/
inductive Operation (σ : Type) where
  | edit (edit : Edit σ)
  | step
  | run
  | drain

/-- What an operation answers about the execution. -/
inductive Answer where
  /-- Nothing was executed. -/
  | done
  /-- The status in which execution paused, or a fault. -/
  | status (answer : Except Fault Machine.Status)
  /-- The words that were put out, or a fault. -/
  | outputs (answer : Except Fault (List Word))

/-- An operation comes back with an answer and leaves the rig `next`. -/
inductive Operation.Performs (ask : σ → Option Word × σ) :
    Operation σ → Rig σ → Answer → Rig σ → Prop
  | edit (edit : Edit σ) (rig : Rig σ) : Performs ask (.edit edit) rig .done (edit.apply rig)
  | step (rig : Rig σ) :
      Performs ask .step rig
        (.status ((rig.step ask).machine.answer (rig.step ask).machine.status)) (rig.step ask)
  | run {rig next : Rig σ} {fuel : Nat} :
      rig.machine.runWith (consult ask) fuel rig.source = some (next.machine, next.source) →
        Performs ask .run rig (.status (next.machine.answer next.machine.status)) next
  | drain {rig next : Rig σ} {fuel : Nat} {outputs : List Word} :
      rig.machine.drainWith (consult ask) fuel rig.source =
          some (outputs, next.machine, next.source) →
        Performs ask .drain rig (.outputs (next.machine.answer outputs)) next

/-- Operations one after the other all come back, with these answers, and leave the rig `next`. -/
inductive Performs (ask : σ → Option Word × σ) :
    List (Operation σ) → Rig σ → List Answer → Rig σ → Prop
  | nil (rig : Rig σ) : Performs ask [] rig [] rig
  | cons {operation : Operation σ} {operations : List (Operation σ)} {rig between next : Rig σ}
      {answer : Answer} {answers : List Answer} :
      operation.Performs ask rig answer between → Performs ask operations between answers next →
        Performs ask (operation :: operations) rig (answer :: answers) next

variable {ask : σ → Option Word × σ} {rig next : Rig σ}

/-! ## What operations do -/

theorem iterate_step (k : Nat) (rig : Rig σ) :
    (step ask)^[k] rig =
      ⟨(rig.machine.stepsWith (consult ask) k rig.source).1,
        (rig.machine.stepsWith (consult ask) k rig.source).2⟩ := by
  induction k generalizing rig with
  | zero => rfl
  | succ k ih => exact ih (rig.step ask)

/-- An operation is an edit, or one or more steps. -/
theorem Operation.Performs.edits_or_steps {operation : Operation σ} {answer : Answer}
    (h : operation.Performs ask rig answer next) :
    (∃ edit : Edit σ, operation = .edit edit ∧ next = edit.apply rig) ∨
      ∃ k, next = (Rig.step ask)^[k + 1] rig := by
  cases h with
  | edit edit => exact Or.inl ⟨edit, rfl, rfl⟩
  | step => exact Or.inr ⟨0, rfl⟩
  | run hrun =>
    obtain ⟨k, hsteps, -⟩ := Machine.stepsWith_of_runWith hrun
    exact Or.inr ⟨k, by rw [iterate_step, hsteps]⟩
  | drain hdrain =>
    obtain ⟨⟨collected, machine, source⟩, honto, heq⟩ := Option.map_eq_some_iff.mp hdrain
    cases heq
    obtain ⟨k, hsteps⟩ := Machine.stepsWith_of_drainOnto honto
    exact Or.inr ⟨k, by rw [iterate_step, hsteps]⟩

/-- What every step preserves and every edit that is made, operations preserve. -/
theorem Performs.invariant_of_mem {P : Rig σ → Prop} {operations : List (Operation σ)}
    {answers : List Answer} (h : Performs ask operations rig answers next)
    (hedit : ∀ edit : Edit σ, .edit edit ∈ operations → ∀ rig : Rig σ, P rig → P (edit.apply rig))
    (hstep : ∀ rig : Rig σ, P rig → P (rig.step ask)) (hrig : P rig) : P next := by
  induction h with
  | nil => exact hrig
  | cons hfirst _ ih =>
    apply ih
    · exact fun edit hmem => hedit edit (List.mem_cons_of_mem _ hmem)
    · rcases hfirst.edits_or_steps with ⟨edit, rfl, rfl⟩ | ⟨k, rfl⟩
      · exact hedit edit List.mem_cons_self _ hrig
      · exact Function.Iterate.rec P hrig hstep _

/-- What every edit and every step preserve, operations preserve. -/
theorem Performs.invariant {P : Rig σ → Prop} {operations : List (Operation σ)}
    {answers : List Answer} (h : Performs ask operations rig answers next)
    (hedit : ∀ (edit : Edit σ) (rig : Rig σ), P rig → P (edit.apply rig))
    (hstep : ∀ rig : Rig σ, P rig → P (rig.step ask)) (hrig : P rig) : P next :=
  h.invariant_of_mem (fun edit _ => hedit edit) hstep hrig

end Rig

end Intcode
