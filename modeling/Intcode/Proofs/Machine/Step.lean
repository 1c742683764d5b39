import Intcode.Machine.Step
import Intcode.Proofs.Machine.Reads

/-!
# A step in two halves

A step first resolves the next instruction, which touches cells and changes nothing else, and then
carries out its effect. `Machine.resolved` is what the first half comes to and `Machine.fetched` the
machine that it leaves; both depend on the contents of memory, the registers and the configuration
alone. `stepWith_eq` puts a step together from the two halves, so that what is said about steps
elsewhere is said about `Machine.commit`; and what that can bring about is listed once
(`Machine.Commits`).
-/

namespace Intcode

/-- The address at which an effect stores a word. -/
def Effect.target? : Effect → Option Word
  | store target _ => some target
  | input target => some target
  | output _ | jump _ | pass | rebase _ | halt => none

namespace Machine

variable {σ : Type}

/-- The next instruction and its effect, or why it cannot be resolved. -/
def resolved (m : Machine) : Except Fault.Cause (Instruction × Effect) :=
  m.context.plan.eval m.memory.get

/-- The machine after resolving its next instruction: the cells that were read are touched. -/
def fetched (m : Machine) : Machine :=
  { m with memory := (m.context.plan.run m.memory).2 }

@[simp] theorem fetched_ip (m : Machine) : m.fetched.ip = m.ip := rfl

@[simp] theorem fetched_base (m : Machine) : m.fetched.base = m.base := rfl

@[simp] theorem fetched_queue (m : Machine) : m.fetched.queue = m.queue := rfl

@[simp] theorem fetched_slot (m : Machine) : m.fetched.slot = m.slot := rfl

@[simp] theorem fetched_status (m : Machine) : m.fetched.status = m.status := rfl

@[simp] theorem fetched_config (m : Machine) : m.fetched.config = m.config := rfl

/-- Resolving changes no word in memory. -/
@[simp] theorem get_fetched (m : Machine) (a : Word) : m.fetched.memory.get a = m.memory.get a :=
  Fetch.get_run _ _ _

/-- Resolving once more touches nothing new. -/
@[simp] theorem fetched_fetched (m : Machine) : m.fetched.fetched = m.fetched := by
  have hrun := Fetch.run_run m.context.plan m.memory
  rw [fetched, fetched]
  exact congrArg (fun r => ({ m with memory := r.2 } : Machine)) hrun

/-- Resolving once more comes to the same. -/
@[simp] theorem resolved_fetched (m : Machine) : m.fetched.resolved = m.resolved := by
  have hget : m.fetched.memory.get = m.memory.get := funext m.get_fetched
  rw [resolved, hget]
  rfl

/-- A store goes on or overflows. -/
theorem status_store (m : Machine) (target value : Word) (width : Nat) :
    (m.store target value width).status =
      if m.config.width.fits value then .running else .faulted ⟨.overflow value, m.ip⟩ := by
  rw [store]
  split <;> rfl

/-- A change of the relative base goes on or overflows. -/
theorem status_rebase (m : Machine) (base : Word) (width : Nat) :
    (m.rebase base width).status =
      if m.config.width.fits base then .running else .faulted ⟨.overflow base, m.ip⟩ := by
  rw [rebase]
  split <;> rfl

/-- A machine whose execution is not over has one of three statuses. -/
theorem status_of_not_isOver {m : Machine} (h : m.isOver = false) :
    m.status = .running ∨ m.status = .output ∨ m.status = .awaitingInput := by
  cases hs : m.status <;> simp_all [isOver]

/-- A step of a machine whose execution is over is none. -/
theorem stepWith_of_isOver {m : Machine} (h : m.isOver = true) (ask : σ → Option Word × σ) (s : σ) :
    m.stepWith ask s = (m, s) := by
  simp [stepWith, h]

/-- Any other step faults in resolving the instruction, or carries out its effect. -/
theorem stepWith_eq {m : Machine} (h : m.isOver = false) (ask : σ → Option Word × σ) (s : σ) :
    m.stepWith ask s =
      match m.resolved with
      | .error cause => (m.fetched.fail cause, s)
      | .ok (i, effect) => m.fetched.commit ask s i.width effect := by
  have hrun := Fetch.run_fst m.context.plan m.memory
  rw [stepWith, if_neg (by simp [h]), resolved, ← hrun, fetched]
  rcases m.context.plan.run m.memory with ⟨outcome, memory⟩
  rcases outcome with cause | ⟨i, effect⟩ <;> rfl

/-! ## What an effect brings about -/

/-- What becomes of the machine `m` by an effect: of all effects only those with a target write, and only
there; a word that does not fit is neither stored nor made the base; and a word that was to be stored may
have been taken from the queue, whether it fits or not. -/
inductive Commits (m : Machine) (width : Nat) : Effect → Machine → Prop
  | stores {effect : Effect} {target word : Word} (queue : List Word) :
      effect.target? = some target → m.config.width.fits word = true →
        Commits m width effect
          ({ m with memory := m.memory.write target word, queue }.advance width)
  | overflows {effect : Effect} {word : Word} (queue : List Word) :
      m.config.width.fits word = false →
        Commits m width effect (({ m with queue } : Machine).fail (.overflow word))
  | waits {target : Word} : Commits m width (.input target) { m with status := .awaitingInput }
  | outputs {value : Word} :
      Commits m width (.output value)
        { m.advance width with slot := some value, status := .output }
  | jumps {destination : Word} :
      Commits m width (.jump destination) { m with ip := destination, status := .running }
  | passes : Commits m width .pass (m.advance width)
  | rebases {base : Word} :
      m.config.width.fits base = true →
        Commits m width (.rebase base) (({ m with base } : Machine).advance width)
  | halts : Commits m width .halt { m with status := .halted }

theorem commits_store {m : Machine} {width : Nat} {effect : Effect} {target : Word}
    (htarget : effect.target? = some target) (word : Word) (queue : List Word) :
    m.Commits width effect (({ m with queue } : Machine).store target word width) := by
  rw [store]
  split
  · next hfits => exact .stores queue htarget hfits
  · next hfits => exact .overflows queue (Bool.eq_false_iff.mpr hfits)

/-- Whatever an effect brings about is one of these. -/
theorem commits_commit (ask : σ → Option Word × σ) (m : Machine) (s : σ) (width : Nat)
    (effect : Effect) : m.Commits width effect (m.commit ask s width effect).1 := by
  cases effect with
  | store target value => exact commits_store rfl value m.queue
  | input target =>
    cases hq : m.queue with
    | cons word queue =>
      simp only [commit, nextInput, hq]
      exact commits_store rfl word queue
    | nil =>
      have hsame : ({ m with queue := [] } : Machine) = m := by rw [← hq]
      rcases ha : ask s with ⟨_ | word, s'⟩
      · have hwaits : m.Commits width (.input target) { m with status := .awaitingInput } := .waits
        simpa only [commit, nextInput, hq, ha] using hwaits
      · have hstores : m.Commits width (.input target) _ := commits_store rfl word []
        simpa only [commit, nextInput, hq, ha, hsame] using hstores
  | output value => exact .outputs
  | jump destination => exact .jumps
  | pass => exact .passes
  | rebase base =>
    rw [commit, rebase]
    split
    · next hfits => exact .rebases hfits
    · next hfits => exact .overflows m.queue (Bool.eq_false_iff.mpr hfits)
  | halt => exact .halts

theorem Commits.config_eq {m n : Machine} {width : Nat} {effect : Effect}
    (h : m.Commits width effect n) : n.config = m.config := by
  cases h <;> rfl

/-- An input instruction for which there is a word stores it, after taking it out of the queue if it
is from there. -/
theorem stepWith_of_input {ask : σ → Option Word × σ} {m : Machine} {s : σ} {i : Instruction}
    {target word : Word} (hover : m.isOver = false) (hresolved : m.resolved = .ok (i, .input target))
    (hword : (m.nextInput ask s).1 = some word) :
    (m.stepWith ask s).1 =
      ({ m.fetched with queue := m.queue.tail } : Machine).store target word i.width := by
  rw [stepWith_eq hover, hresolved]
  cases hq : m.queue with
  | cons first queue =>
    simp only [nextInput, hq] at hword
    obtain rfl := Option.some.inj hword
    simp only [commit, nextInput, fetched_queue, hq, List.tail_cons]
  | nil =>
    have hsame : ({ m.fetched with queue := [] } : Machine) = m.fetched := by rw [fetched, ← hq]
    rcases ha : ask s with ⟨answer, s'⟩
    simp only [nextInput, hq, ha] at hword
    subst hword
    simp only [commit, nextInput, fetched_queue, hq, ha, List.tail_nil, hsame]

/-! ## The configuration -/

/-- No step changes what a machine is configured to do. -/
theorem config_stepWith (ask : σ → Option Word × σ) (m : Machine) (s : σ) :
    (m.stepWith ask s).1.config = m.config := by
  cases hover : m.isOver with
  | true => rw [stepWith_of_isOver hover]
  | false =>
    rw [stepWith_eq hover]
    rcases m.resolved with cause | ⟨i, effect⟩
    · rfl
    · exact (commits_commit ask m.fetched s i.width effect).config_eq

end Machine

end Intcode
