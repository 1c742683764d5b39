import Mathlib.Algebra.Ring.Int.Defs
import Intcode.Proofs.Machine.Starvation

/-!
# Restricted machines

A configuration can deny a machine wide words and relative addressing. A machine that needs what it is
denied is *refused*: it stops with an overflow, or because relative addressing is not available. Other
than by refusals, restrictions do not show.

## Shape of the proof

An instruction is resolved without relative addressing as it is with it, cell by cell, or it is refused
(`plan_weakens`); and what is left to do is done alike unless a word does not fit
(`isRefused_or_commit_eq`). So a step is refused, or it is the step of the unrestricted machine
(`isRefused_or_stepWith_eq`), which itself is never refused. From there the two go together until one
of them is refused (`isRefused_or_play_eq`).
-/

namespace Intcode

/-- Whether an instruction was not carried out for want of a capability. -/
def Fault.Cause.isRefusal : Fault.Cause → Bool
  | overflow _ | relativeModeDisabled => true
  | unknownOpcode _ | invalidMode _ _ | malformedInstruction _ | immediateWrite _
  | negativeAddress _ => false

/-! ## Resolving with and without relative addressing -/

namespace Fetch

variable {α β : Type}

/-- The second computation is never refused, and the first is refused relative addressing or comes to
the same and touches the same cells. -/
structure Weakens (f g : Fetch α) : Prop where
  refused_or_eq : ∀ m, (f.run m).1 = .error .relativeModeDisabled ∨ f.run m = g.run m
  not_refused : ∀ m cause, (g.run m).1 = .error cause → cause.isRefusal = false

theorem weakens_done (answer : α) : (done answer).Weakens (done answer) :=
  ⟨fun _ => Or.inr rfl, fun _ _ h => nomatch h⟩

theorem weakens_cell (address : Word) : (cell address).Weakens (cell address) :=
  ⟨fun _ => Or.inr rfl, fun _ _ h => nomatch h⟩

theorem weakens_fault {cause : Fault.Cause} (h : cause.isRefusal = false) :
    (fault cause : Fetch α).Weakens (fault cause) :=
  ⟨fun _ => Or.inr rfl, fun _ _ heq => Except.error.inj heq ▸ h⟩

theorem Weakens.bind {f g : Fetch α} {k l : α → Fetch β} (h : f.Weakens g)
    (hnext : ∀ answer, (k answer).Weakens (l answer)) : (f >>= k).Weakens (g >>= l) := by
  constructor
  · intro m
    rw [run_bind, run_bind]
    rcases h.refused_or_eq m with hrefused | hsame
    · rcases hf : f.run m with ⟨outcome, m'⟩
      rw [hf] at hrefused
      obtain rfl : outcome = .error .relativeModeDisabled := hrefused
      exact Or.inl rfl
    · rw [hsame]
      rcases g.run m with ⟨cause | answer, m'⟩
      · exact Or.inr rfl
      · exact (hnext answer).refused_or_eq m'
  · intro m cause heq
    rw [run_bind] at heq
    rcases hg : g.run m with ⟨cause' | answer, m'⟩
    · rw [hg] at heq
      obtain rfl : cause' = cause := Except.error.inj heq
      exact h.not_refused m cause' (by rw [hg])
    · rw [hg] at heq
      exact (hnext answer).not_refused m' cause heq

end Fetch

namespace Context

/-- The context with relative addressing available. -/
def full (c : Context) : Context :=
  { c with relative := true }

theorem address_weakens (a : Word) : (address a).Weakens (address a) := by
  rw [address]
  split
  · exact Fetch.weakens_fault rfl
  · exact Fetch.weakens_done a

theorem relativeAddress_weakens (c : Context) (offset : Word) :
    (c.relativeAddress offset).Weakens (c.full.relativeAddress offset) := by
  have hfull : c.full.relativeAddress offset = address (c.base + offset) := rfl
  have haddress := address_weakens (c.base + offset)
  rw [hfull, relativeAddress]
  split
  · exact haddress
  · exact ⟨fun _ => Or.inl rfl, haddress.not_refused⟩

theorem load_weakens (c : Context) (mode : Mode) (param : Nat) :
    (c.load mode param).Weakens (c.full.load mode param) := by
  refine .bind (Fetch.weakens_cell _) fun word => ?_
  cases mode with
  | immediate => exact Fetch.weakens_done word
  | position => exact .bind (address_weakens word) Fetch.weakens_cell
  | relative => exact .bind (c.relativeAddress_weakens word) Fetch.weakens_cell

theorem target_weakens (c : Context) (mode : Mode) (param : Nat) :
    (c.target mode param).Weakens (c.full.target mode param) := by
  refine .bind (Fetch.weakens_cell _) fun word => ?_
  cases mode with
  | immediate => exact Fetch.weakens_fault rfl
  | position => exact address_weakens word
  | relative => exact c.relativeAddress_weakens word

theorem combine_weakens (c : Context) (i : Instruction) (f : Word → Word → Word) :
    (c.combine i f).Weakens (c.full.combine i f) :=
  .bind (c.load_weakens i.first 1) fun _ =>
    .bind (c.load_weakens i.second 2) fun _ =>
      .bind (c.target_weakens i.third 3) fun _ => Fetch.weakens_done _

theorem branch_weakens (c : Context) (i : Instruction) (taken : Word → Bool) :
    (c.branch i taken).Weakens (c.full.branch i taken) :=
  .bind (c.load_weakens i.first 1) fun _ =>
    .bind (c.load_weakens i.second 2) fun _ => Fetch.weakens_done _

theorem resolve_weakens (c : Context) (i : Instruction) :
    (c.resolve i).Weakens (c.full.resolve i) := by
  rw [resolve, resolve]
  cases i.opcode with
  | add => exact c.combine_weakens i _
  | mul => exact c.combine_weakens i _
  | lessThan => exact c.combine_weakens i _
  | equals => exact c.combine_weakens i _
  | jumpIfTrue => exact c.branch_weakens i _
  | jumpIfFalse => exact c.branch_weakens i _
  | input => exact .bind (c.target_weakens i.first 1) fun _ => Fetch.weakens_done _
  | output => exact .bind (c.load_weakens i.first 1) fun _ => Fetch.weakens_done _
  | adjustBase =>
    have hmoves := Fetch.Weakens.bind (c.load_weakens i.first 1) fun delta =>
      Fetch.weakens_done (Effect.rebase (c.base + delta))
    show Fetch.Weakens (if c.relative then _ else _) _
    split
    · exact hmoves
    · -- refused before the operand is read
      exact ⟨fun _ => Or.inl rfl, hmoves.not_refused⟩
  | halt => exact Fetch.weakens_done _

theorem instruction_weakens (c : Context) : c.instruction.Weakens c.full.instruction := by
  refine .bind (address_weakens c.ip) fun a => .bind (Fetch.weakens_cell a) fun word => ?_
  cases Instruction.decode word with
  | ok i => exact Fetch.weakens_done i
  | error e => cases e <;> exact Fetch.weakens_fault rfl

/-- Without relative addressing an instruction is resolved as with it, or refused. -/
theorem plan_weakens (c : Context) : c.plan.Weakens c.full.plan :=
  .bind c.instruction_weakens fun i => .bind (c.resolve_weakens i) fun _ => Fetch.weakens_done _

end Context

namespace Machine

variable {σ : Type} {m : Machine}

/-! ## Refusals -/

/-- Whether the machine has stopped for want of a capability. -/
def isRefused (m : Machine) : Bool :=
  match m.status with
  | .faulted fault => fault.cause.isRefusal
  | .running | .output | .awaitingInput | .halted => false

/-- The machine with all capabilities. -/
def unrestricted (m : Machine) : Machine :=
  { m with config := {} }

@[simp] theorem isRefused_unrestricted (m : Machine) : m.unrestricted.isRefused = m.isRefused := rfl

@[simp] theorem isOver_unrestricted (m : Machine) : m.unrestricted.isOver = m.isOver := rfl

@[simp] theorem isRefused_fail (m : Machine) (cause : Fault.Cause) :
    (m.fail cause).isRefused = cause.isRefusal := rfl

theorem isRefused_of_status {fault : Fault} (h : m.status = .faulted fault) :
    m.isRefused = fault.cause.isRefusal := by
  rw [isRefused, h]

theorem isOver_of_isRefused (h : m.isRefused = true) : m.isOver = true := by
  cases hs : m.status <;> simp_all [isRefused, isOver]

theorem isRefused_of_not_isOver (h : m.isOver = false) : m.isRefused = false := by
  cases hs : m.status <;> simp_all [isRefused, isOver]

/-! ## Steps with and without restrictions -/

/-- Resolving is refused relative addressing, or done as by the unrestricted machine. -/
theorem resolved_eq_or_unrestricted (m : Machine) :
    m.resolved = .error .relativeModeDisabled ∨
      m.unrestricted.resolved = m.resolved ∧ m.unrestricted.fetched = m.fetched.unrestricted := by
  have hfull : m.unrestricted.context = m.context.full := rfl
  have hresolved : (m.context.plan.run m.memory).1 = m.resolved := Fetch.run_fst _ _
  have hunrestricted : (m.context.full.plan.run m.memory).1 = m.unrestricted.resolved :=
    Fetch.run_fst _ _
  rcases m.context.plan_weakens.refused_or_eq m.memory with h | h
  · exact Or.inl (hresolved.symm.trans h)
  · refine Or.inr ⟨?_, ?_⟩
    · rw [← hresolved, ← hunrestricted, h]
    · rw [fetched, fetched, hfull]
      exact congrArg (fun r => ({ m with memory := r.2 } : Machine).unrestricted) h.symm

/-- The unrestricted machine is refused nothing in resolving. -/
theorem resolved_unrestricted_ne_refusal {cause : Fault.Cause}
    (h : m.unrestricted.resolved = .error cause) : cause.isRefusal = false := by
  have hresolved : (m.context.full.plan.run m.memory).1 = m.unrestricted.resolved :=
    Fetch.run_fst _ _
  exact m.context.plan_weakens.not_refused m.memory cause (hresolved.trans h)

theorem store_of_fits {target value : Word} {width : Nat} (h : m.config.width.fits value = true) :
    m.store target value width =
      { m with memory := m.memory.write target value }.advance width := by
  rw [store, if_pos h]

theorem store_of_not_fits {target value : Word} {width : Nat}
    (h : m.config.width.fits value = false) :
    m.store target value width = m.fail (.overflow value) := by
  rw [store, if_neg (by simp [h])]

theorem rebase_of_fits {base : Word} {width : Nat} (h : m.config.width.fits base = true) :
    m.rebase base width = { m with base }.advance width := by
  rw [rebase, if_pos h]

theorem rebase_of_not_fits {base : Word} {width : Nat} (h : m.config.width.fits base = false) :
    m.rebase base width = m.fail (.overflow base) := by
  rw [rebase, if_neg (by simp [h])]

/-- Every word fits a machine without restrictions. -/
theorem fits_unrestricted (m : Machine) (word : Word) :
    m.unrestricted.config.width.fits word = true := rfl

theorem isRefused_or_store_eq (m : Machine) (target value : Word) (width : Nat) :
    (m.store target value width).isRefused = true ∨
      m.unrestricted.store target value width = (m.store target value width).unrestricted := by
  cases hfits : m.config.width.fits value with
  | false =>
    rw [store_of_not_fits hfits]
    exact Or.inl rfl
  | true =>
    rw [store_of_fits hfits, store_of_fits (m.fits_unrestricted value)]
    exact Or.inr rfl

theorem isRefused_or_rebase_eq (m : Machine) (base : Word) (width : Nat) :
    (m.rebase base width).isRefused = true ∨
      m.unrestricted.rebase base width = (m.rebase base width).unrestricted := by
  cases hfits : m.config.width.fits base with
  | false =>
    rw [rebase_of_not_fits hfits]
    exact Or.inl rfl
  | true =>
    rw [rebase_of_fits hfits, rebase_of_fits (m.fits_unrestricted base)]
    exact Or.inr rfl

/-- An effect is refused, or carried out as by the unrestricted machine. -/
theorem isRefused_or_commit_eq (ask : σ → Option Word × σ) (m : Machine) (s : σ) (width : Nat)
    (effect : Effect) :
    (m.commit ask s width effect).1.isRefused = true ∨
      m.unrestricted.commit ask s width effect =
        Prod.map unrestricted id (m.commit ask s width effect) := by
  cases effect with
  | store target value =>
    exact (m.isRefused_or_store_eq target value width).imp_right fun h => Prod.ext h rfl
  | input target =>
    have hqueue : m.unrestricted.queue = m.queue := rfl
    cases hq : m.queue with
    | cons word queue =>
      simp only [commit, nextInput, hqueue, hq]
      exact ({ m with queue }.isRefused_or_store_eq target word width).imp_right
        fun h => Prod.ext h rfl
    | nil =>
      rcases ha : ask s with ⟨_ | word, s'⟩
      · simp only [commit, nextInput, hqueue, hq, ha]
        exact Or.inr rfl
      · simp only [commit, nextInput, hqueue, hq, ha]
        exact (m.isRefused_or_store_eq target word width).imp_right fun h => Prod.ext h rfl
  | output value => exact Or.inr rfl
  | jump destination => exact Or.inr rfl
  | pass => exact Or.inr rfl
  | rebase base =>
    exact (m.isRefused_or_rebase_eq base width).imp_right fun h => Prod.ext h rfl
  | halt => exact Or.inr rfl

/-- A step is refused, or it is that of the unrestricted machine. -/
theorem isRefused_or_stepWith_eq (ask : σ → Option Word × σ) (m : Machine) (s : σ) :
    (m.stepWith ask s).1.isRefused = true ∨
      m.unrestricted.stepWith ask s = Prod.map unrestricted id (m.stepWith ask s) := by
  cases hover : m.isOver with
  | true =>
    rw [stepWith_of_isOver hover, stepWith_of_isOver (m := m.unrestricted) hover]
    exact Or.inr rfl
  | false =>
    rw [stepWith_eq hover, stepWith_eq (m := m.unrestricted) hover]
    rcases m.resolved_eq_or_unrestricted with hrefused | ⟨hresolved, hfetched⟩
    · rw [hrefused]
      exact Or.inl rfl
    · rw [hresolved, hfetched]
      rcases m.resolved with cause | ⟨i, effect⟩
      · exact Or.inr rfl
      · exact isRefused_or_commit_eq ask m.fetched s i.width effect

/-! ## Overflows -/

/-- What was left to be done was to put this word somewhere, at the address of a result or into the
relative base, and the machine that came of it has it there. -/
def PutBy (word : Word) (effect : Effect) (memory : Memory) (next : Machine) : Prop :=
  (∃ target, (effect = .store target word ∨ effect = .input target) ∧
      next.memory = memory.write target word) ∨
    effect = .rebase word ∧ next.base = word

/-- The next instruction has a place for its result or moves the relative base, and the machine that
came of it has this word there and every other word of memory where it was. -/
def Puts (m : Machine) (word : Word) (next : Machine) : Prop :=
  ∃ i effect, m.resolved = .ok (i, effect) ∧ PutBy word effect m.fetched.memory next

/-- Only words outside the range of 64 bits do not fit, and only if the machine has 64 bits. -/
theorem fits_eq_false_iff {width : WordWidth} {word : Word} :
    width.fits word = false ↔ width = .bits64 ∧ ¬ (-2 ^ 63 ≤ word ∧ word < 2 ^ 63) := by
  cases width with
  | unbounded => simp [WordWidth.fits]
  | bits64 =>
    have hlow : (-0x8000000000000000 : Word) = -2 ^ 63 := by decide
    have hhigh : (0x8000000000000000 : Word) = 2 ^ 63 := by decide
    simp [WordWidth.fits, hlow, hhigh]

theorem fits_of_isRefused_store {target value : Word} {width : Nat}
    (h : (m.store target value width).isRefused = true) : m.config.width.fits value = false := by
  cases hfits : m.config.width.fits value with
  | false => rfl
  | true =>
    rw [store_of_fits hfits] at h
    cases h

theorem fits_of_isRefused_rebase {base : Word} {width : Nat}
    (h : (m.rebase base width).isRefused = true) : m.config.width.fits base = false := by
  cases hfits : m.config.width.fits base with
  | false => rfl
  | true =>
    rw [rebase_of_fits hfits] at h
    cases h

/-- An effect is refused for one reason only, a word that does not fit; and without restrictions that
word is put where the effect says. -/
theorem exists_overflow_of_commit {ask : σ → Option Word × σ} {s : σ} {width : Nat} {effect : Effect}
    (h : (m.commit ask s width effect).1.isRefused = true) :
    ∃ word, m.config.width.fits word = false ∧
      (m.commit ask s width effect).1.status = .faulted ⟨.overflow word, m.ip⟩ ∧
      (m.unrestricted.commit ask s width effect).1.status = .running ∧
      PutBy word effect m.memory (m.unrestricted.commit ask s width effect).1 := by
  cases effect with
  | store target value =>
    have hfits := fits_of_isRefused_store h
    refine ⟨value, hfits, ?_, rfl, Or.inl ⟨target, Or.inl rfl, rfl⟩⟩
    simp only [commit, store_of_not_fits hfits]
    rfl
  | input target =>
    have hqueue : m.unrestricted.queue = m.queue := rfl
    cases hq : m.queue with
    | cons word queue =>
      simp only [commit, nextInput, hqueue, hq] at h ⊢
      have hfits := fits_of_isRefused_store h
      refine ⟨word, hfits, ?_, rfl, Or.inl ⟨target, Or.inr rfl, rfl⟩⟩
      rw [store_of_not_fits hfits]
      rfl
    | nil =>
      rcases ha : ask s with ⟨_ | word, s'⟩
      · simp only [commit, nextInput, hq, ha] at h
        cases h
      · simp only [commit, nextInput, hqueue, hq, ha] at h ⊢
        have hfits := fits_of_isRefused_store h
        refine ⟨word, hfits, ?_, rfl, Or.inl ⟨target, Or.inr rfl, rfl⟩⟩
        rw [store_of_not_fits hfits]
        rfl
  | rebase base =>
    have hfits := fits_of_isRefused_rebase h
    refine ⟨base, hfits, ?_, rfl, Or.inr ⟨rfl, rfl⟩⟩
    simp only [commit, rebase_of_not_fits hfits]
    rfl
  | output value => cases h
  | jump destination => cases h
  | pass => cases h
  | halt => cases h

/-- Without restrictions no step is refused. -/
theorem isRefused_stepWith_unrestricted (ask : σ → Option Word × σ) (s : σ)
    (h : m.isRefused = false) : (m.unrestricted.stepWith ask s).1.isRefused = false := by
  cases hover : m.isOver with
  | true =>
    rw [stepWith_of_isOver (m := m.unrestricted) hover]
    exact h
  | false =>
    rw [stepWith_eq (m := m.unrestricted) hover]
    rcases hresolved : m.unrestricted.resolved with cause | ⟨i, effect⟩
    · exact resolved_unrestricted_ne_refusal hresolved
    · by_contra hrefused
      rw [Bool.not_eq_false] at hrefused
      obtain ⟨word, hfits, -⟩ := exists_overflow_of_commit hrefused
      have hcontra := (m.fits_unrestricted word).symm.trans hfits
      cases hcontra

/-- A step that overflows has come upon a word that does not fit; and without restrictions that word is
put where the instruction says. -/
theorem overflow_stepWith {ask : σ → Option Word × σ} {s : σ} {word site : Word}
    (hover : m.isOver = false)
    (h : (m.stepWith ask s).1.status = .faulted ⟨.overflow word, site⟩) :
    m.config.width.fits word = false ∧ (m.unrestricted.stepWith ask s).1.status = .running ∧
      m.unrestricted.Puts word (m.unrestricted.stepWith ask s).1 := by
  rw [stepWith_eq hover] at h
  rw [stepWith_eq (m := m.unrestricted) hover]
  rcases m.resolved_eq_or_unrestricted with hrefused | ⟨hresolved, hfetched⟩
  · rw [hrefused] at h
    cases h
  · rcases hm : m.resolved with cause | ⟨i, effect⟩
    · rw [hm] at h
      obtain rfl : cause = .overflow word := congrArg Fault.cause (Status.faulted.inj h)
      have hcontra := resolved_unrestricted_ne_refusal (hresolved.trans hm)
      cases hcontra
    · rw [hm] at h
      have hrefused : (m.fetched.commit ask s i.width effect).1.isRefused = true := by
        rw [isRefused_of_status h]
        rfl
      obtain ⟨word', hfits, hstatus, hrunning, hput⟩ := exists_overflow_of_commit hrefused
      obtain rfl : word' = word :=
        Fault.Cause.overflow.inj (congrArg Fault.cause (Status.faulted.inj (hstatus.symm.trans h)))
      rw [hresolved, hm, hfetched]
      refine ⟨hfits, hrunning, i, effect, hresolved.trans hm, ?_⟩
      rw [hfetched]
      exact hput

/-! ## Runs -/

/-- What happens to a machine from outside: input words are queued, or it is let take a step. -/
inductive Event where
  | queue (words : List Word)
  | step

/-- Lets events happen one after the other, with a source of input behind the queue. -/
def play (ask : σ → Option Word × σ) : List Event → Machine → σ → Machine × σ
  | [], m, s => (m, s)
  | .queue words :: events, m, s => play ask events (m.extend words) s
  | .step :: events, m, s => play ask events (m.stepWith ask s).1 (m.stepWith ask s).2

theorem play_append (ask : σ → Option Word × σ) (before after : List Event) (m : Machine) (s : σ) :
    m.play ask (before ++ after) s =
      (m.play ask before s).1.play ask after (m.play ask before s).2 := by
  induction before generalizing m s with
  | nil => rfl
  | cons event before ih =>
    cases event with
    | queue words => exact ih _ _
    | step => exact ih _ _

theorem play_concat_step (ask : σ → Option Word × σ) (events : List Event) (m : Machine) (s : σ) :
    m.play ask (events ++ [.step]) s =
      (m.play ask events s).1.stepWith ask (m.play ask events s).2 :=
  play_append ask events [.step] m s

theorem config_play (ask : σ → Option Word × σ) (events : List Event) (m : Machine) (s : σ) :
    (m.play ask events s).1.config = m.config := by
  induction events generalizing m s with
  | nil => rfl
  | cons event events ih =>
    cases event with
    | queue words => exact ih _ _
    | step => exact (ih _ _).trans (config_stepWith ask m s)

/-- A refused machine stays so. -/
theorem isRefused_play (ask : σ → Option Word × σ) (events : List Event) (s : σ)
    (h : m.isRefused = true) : (m.play ask events s).1.isRefused = true := by
  induction events generalizing m with
  | nil => exact h
  | cons event events ih =>
    cases event with
    | queue words => exact ih (m := m.extend words) h
    | step =>
      rw [play, stepWith_of_isOver (isOver_of_isRefused h)]
      exact ih h

/-- Until a restricted machine is refused, all that happens to it happens to the unrestricted one
alike. -/
theorem isRefused_or_play_eq (ask : σ → Option Word × σ) (events : List Event) (m : Machine) (s : σ) :
    (m.play ask events s).1.isRefused = true ∨
      m.unrestricted.play ask events s = Prod.map unrestricted id (m.play ask events s) := by
  induction events generalizing m s with
  | nil => exact Or.inr rfl
  | cons event events ih =>
    cases event with
    | queue words => exact ih (m.extend words) s
    | step =>
      rw [play, play]
      rcases isRefused_or_stepWith_eq ask m s with hrefused | hsame
      · exact Or.inl (isRefused_play ask events _ hrefused)
      · rw [hsame]
        exact ih _ _

/-- Nothing that happens to an unrestricted machine gets it refused. -/
theorem isRefused_play_unrestricted (ask : σ → Option Word × σ) (events : List Event) (s : σ)
    (h : m.isRefused = false) : (m.unrestricted.play ask events s).1.isRefused = false := by
  induction events generalizing m s with
  | nil => exact h
  | cons event events ih =>
    cases event with
    | queue words => exact ih (m := m.extend words) s h
    | step =>
      have hconfig : (m.unrestricted.stepWith ask s).1.config = {} :=
        config_stepWith ask m.unrestricted s
      have hkept : (m.unrestricted.stepWith ask s).1.unrestricted =
          (m.unrestricted.stepWith ask s).1 := by
        rw [unrestricted, ← hconfig]
      rw [play, ← hkept]
      exact ih _ (isRefused_stepWith_unrestricted ask s h)

/-- **Capabilities only restrict.** A restricted machine and the same machine without restrictions,
given the same words and the same source at the same times, are and have done the same for as long as
the restricted one is not refused. So a fault that is no refusal is one that both have, at the same
step, unless the restricted one was refused before or instead. The unrestricted machine is never
refused. And where the next step of the restricted machine overflows, it has 64 bits and the word lies
outside their range, while the same step of the unrestricted machine goes on and puts just that word
where the instruction says. -/
theorem capabilities_only_restrict {σ : Type} (ask : σ → Option Word × σ) (m : Machine) (s : σ)
    (h : m.isRefused = false) (events : List Event) :
    ((m.play ask events s).1.isRefused = false →
      m.unrestricted.play ask events s = Prod.map unrestricted id (m.play ask events s)) ∧
    (∀ fault, fault.cause.isRefusal = false → (m.play ask events s).1.status = .faulted fault →
      (m.unrestricted.play ask events s).1.status = .faulted fault) ∧
    (∀ fault, (m.unrestricted.play ask events s).1.status = .faulted fault →
      (m.play ask events s).1.status = .faulted fault ∨
        (m.play ask events s).1.isRefused = true) ∧
    (m.unrestricted.play ask events s).1.isRefused = false ∧
    ∀ word site, (m.play ask events s).1.isOver = false →
      (m.play ask (events ++ [.step]) s).1.status = .faulted ⟨.overflow word, site⟩ →
        m.config.width = .bits64 ∧ ¬ (-2 ^ 63 ≤ word ∧ word < 2 ^ 63) ∧
        (m.unrestricted.play ask (events ++ [.step]) s).1.status = .running ∧
        (m.unrestricted.play ask events s).1.Puts word
          (m.unrestricted.play ask (events ++ [.step]) s).1 := by
  have hagree : (m.play ask events s).1.isRefused = false →
      m.unrestricted.play ask events s = Prod.map unrestricted id (m.play ask events s) := by
    intro hnot
    refine (isRefused_or_play_eq ask events m s).resolve_left ?_
    rw [hnot]
    exact Bool.false_ne_true
  have hstatus : (m.play ask events s).1.isRefused = false →
      (m.unrestricted.play ask events s).1.status = (m.play ask events s).1.status := by
    intro hnot
    rw [hagree hnot]
    rfl
  refine ⟨hagree, fun fault hcause hfault => ?_, fun fault hfault => ?_,
    isRefused_play_unrestricted ask events s h, fun word site hover hoverflow => ?_⟩
  · rw [hstatus ((isRefused_of_status hfault).trans hcause), hfault]
  · cases hrefused : (m.play ask events s).1.isRefused with
    | true => exact Or.inr rfl
    | false => exact Or.inl ((hstatus hrefused).symm.trans hfault)
  · rw [play_concat_step] at hoverflow
    obtain ⟨hfits, hrunning, hputs⟩ := overflow_stepWith hover hoverflow
    obtain ⟨hwidth, hrange⟩ := fits_eq_false_iff.mp hfits
    have hconfig : (m.play ask events s).1.config = m.config := config_play ask events m s
    rw [play_concat_step, hagree (isRefused_of_not_isOver hover)]
    exact ⟨hconfig ▸ hwidth, hrange, hrunning, hputs⟩

/-- A program that triples the word it reads, on a machine of 64 bits and relative addressing denied:
the word fits, three times the word does not, and a machine without restrictions stores it. -/
theorem capabilities_only_restrict_triple :
    let m := ofProgram ⟨[3, 50, 1002, 50, 3, 51, 99]⟩ { width := .bits64, relative := false }
    let events : List Event := [.queue [4000000000000000000], .step]
    m.unrestricted = ofProgram ⟨[3, 50, 1002, 50, 3, 51, 99]⟩ {} ∧ m.isRefused = false ∧
      (m.play noSource events ()).1.isOver = false ∧
      (m.play noSource (events ++ [.step]) ()).1.status =
        .faulted ⟨.overflow 12000000000000000000, 2⟩ ∧
      m.unrestricted.play noSource events () =
        Prod.map unrestricted id (m.play noSource events ()) ∧
      (m.unrestricted.play noSource events ()).1.Puts 12000000000000000000
        (m.unrestricted.play noSource (events ++ [.step]) ()).1 := by
  intro m events
  have hfresh : m.isRefused = false := rfl
  have hnot : (m.play noSource events ()).1.isRefused = false := by decide +kernel
  have hover : (m.play noSource events ()).1.isOver = false := by decide +kernel
  have hoverflow : (m.play noSource (events ++ [.step]) ()).1.status =
      .faulted ⟨.overflow 12000000000000000000, 2⟩ := by decide +kernel
  obtain ⟨hagree, -, -, -, hputs⟩ := capabilities_only_restrict noSource m () hfresh events
  obtain ⟨-, -, -, hput⟩ := hputs _ _ hover hoverflow
  exact ⟨rfl, hfresh, hover, hoverflow, hagree hnot, hput⟩

end Machine

end Intcode
