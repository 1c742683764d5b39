import Mathlib.Data.List.Induction
import Intcode.Proofs.Machine.Access
import Intcode.Proofs.Machine.Capabilities
import Intcode.Proofs.Machine.Ideal

/-!
# Addresses stay legal

A machine reads and writes from address zero on, whatever its program computes. The one negative
address that it can ever hold for use is its instruction pointer, for the destination of a jump is not
looked at before the next step. That step then faults and does nothing else, and so do all later ones.

## Shape of the proof

A step moves the instruction pointer on, leaves it or takes a jump (`Machine.ip_stepWith`), so a negative
one comes of a jump that was taken. From then on the machine is *stranded*: it completes no more
instructions, so that jump stays the last one in its history (`Machine.nonneg_or_stranded_play`).
-/

namespace Intcode

/-- A run touches no more cells than it reads. -/
theorem Fetch.size_run_le {α : Type} (f : Fetch α) (m : Memory) :
    (f.run m).2.size ≤ m.size + (f.reads m.get).length := by
  induction f generalizing m with
  | done answer => exact Nat.le_refl _
  | fault cause => exact Nat.le_refl _
  | read address next ih =>
    have hget : (m.touch address).get = m.get := funext (Memory.get_touch m address)
    have hrest := ih (m.get address) (m.touch address)
    have htouch := m.size_touch_le address
    rw [hget] at hrest
    simp only [run, reads, Memory.read, List.length_cons]
    omega

/-- No negative address is touched. -/
def Memory.IsLegal (m : Memory) : Prop :=
  ∀ a, m.contains a = true → 0 ≤ a

theorem Memory.isLegal_ofProgram (program : Program) : (Memory.ofProgram program).IsLegal := by
  intro a ha
  obtain ⟨i, rfl, -⟩ := (Memory.contains_ofProgram program a).mp ha
  exact Int.natCast_nonneg i

namespace Machine

variable {σ : Type} {ask : σ → Option Word × σ} {m : Machine} {s : σ}

/-! ## Cells -/

theorem isLegal_fetched (h : m.memory.IsLegal) : m.fetched.memory.IsLegal := by
  intro a hafter
  cases hbefore : m.memory.contains a with
  | true => exact h a hbefore
  | false => exact (fetched_of_newly_touched hbefore hafter).2

/-- A step touches no negative address. -/
theorem isLegal_stepWith (ask : σ → Option Word × σ) (s : σ) (h : m.memory.IsLegal) :
    (m.stepWith ask s).1.memory.IsLegal := by
  cases hover : m.isOver with
  | true => rwa [stepWith_of_isOver hover]
  | false =>
    rcases memory_stepWith ask s hover with hmemory | ⟨target, value, htarget, hmemory⟩
    · rw [hmemory]
      exact isLegal_fetched h
    · rw [hmemory]
      intro a ha
      rw [Memory.contains_write, Bool.or_eq_true, decide_eq_true_eq] at ha
      rcases ha with rfl | ha
      · exact htarget
      · exact isLegal_fetched h a ha

/-- A step changes at most one word in memory. -/
theorem exists_get_stepWith_eq (ask : σ → Option Word × σ) (m : Machine) (s : σ) :
    ∃ target, ∀ a, a ≠ target → (m.stepWith ask s).1.memory.get a = m.memory.get a := by
  cases hover : m.isOver with
  | true => exact ⟨0, fun a _ => by rw [stepWith_of_isOver hover]⟩
  | false =>
    rcases memory_stepWith ask s hover with hmemory | ⟨target, value, -, hmemory⟩
    · exact ⟨0, fun a _ => by rw [hmemory, get_fetched]⟩
    · exact ⟨target, fun a ha => by rw [hmemory, Memory.get_write, if_neg ha.symm, get_fetched]⟩

/-- A step touches at most seven cells: those that are read, and the one that is written. -/
theorem size_stepWith_le (ask : σ → Option Word × σ) (m : Machine) (s : σ) :
    (m.stepWith ask s).1.memory.size ≤ m.memory.size + 7 := by
  cases hover : m.isOver with
  | true =>
    rw [stepWith_of_isOver hover]
    exact Nat.le_add_right _ _
  | false =>
    have hreads : (m.context.plan.reads m.memory.get).length ≤ 6 := m.context.readsAtMost_plan
    have hrun : m.fetched.memory.size ≤ m.memory.size + (m.context.plan.reads m.memory.get).length :=
      Fetch.size_run_le _ _
    rcases memory_stepWith ask s hover with hmemory | ⟨target, value, -, hmemory⟩
    · rw [hmemory]
      omega
    · have hwrite := m.fetched.memory.size_write_le target value
      rw [hmemory]
      omega

/-- What happens to a machine leaves every touched cell touched, and no negative address touched. -/
theorem contains_play {a : Word} (ask : σ → Option Word × σ) (events : List Event) (s : σ)
    (h : m.memory.contains a = true) : (m.play ask events s).1.memory.contains a = true := by
  induction events generalizing m s with
  | nil => exact h
  | cons event events ih =>
    cases event with
    | queue words => exact ih (m := m.extend words) s h
    | step => exact ih _ (contains_stepWith ask s h)

theorem isLegal_play (ask : σ → Option Word × σ) (events : List Event) (s : σ)
    (h : m.memory.IsLegal) : (m.play ask events s).1.memory.IsLegal := by
  induction events generalizing m s with
  | nil => exact h
  | cons event events ih =>
    cases event with
    | queue words => exact ih (m := m.extend words) s h
    | step => exact ih _ (isLegal_stepWith ask s h)

/-! ## Completed instructions -/

/-- Whether the next step completes its instruction, which a fault or the lack of input can keep it
from. -/
def completes (ask : σ → Option Word × σ) (m : Machine) (s : σ) : Bool :=
  match m.isOver, (m.stepWith ask s).1.status with
  | false, .running | false, .output | false, .halted => true
  | _, _ => false

/-- The history of a machine while events happen to it: what it was each time before it completed an
instruction. -/
def history (ask : σ → Option Word × σ) : List Event → Machine → σ → List Machine
  | [], _, _ => []
  | .queue words :: events, m, s => history ask events (m.extend words) s
  | .step :: events, m, s =>
    (if m.completes ask s then [m] else []) ++
      history ask events (m.stepWith ask s).1 (m.stepWith ask s).2

theorem history_append (before after : List Event) (m : Machine) (s : σ) :
    history ask (before ++ after) m s =
      history ask before m s ++
        history ask after (m.play ask before s).1 (m.play ask before s).2 := by
  induction before generalizing m s with
  | nil => rfl
  | cons event before ih =>
    cases event with
    | queue words => exact ih _ _
    | step => rw [List.cons_append, history, ih, history, List.append_assoc]; rfl

/-- The machine stands at a jump whose test passes, and this is where it leads. -/
def TakesJump (m : Machine) (destination : Word) : Prop :=
  ∃ i tested, m.decoded = .ok i ∧
    (i.opcode = .jumpIfTrue ∧ tested ≠ 0 ∨ i.opcode = .jumpIfFalse ∧ tested = 0) ∧
    m.ideal.value i.first 1 = .ok tested ∧ m.ideal.value i.second 2 = .ok destination

/-! ## The instruction pointer -/

/-- An effect leaves the instruction pointer, moves it behind the instruction or jumps. -/
theorem Commits.ip_eq_or {n : Machine} {width : Nat} {effect : Effect}
    (h : m.Commits width effect n) :
    n.ip = m.ip ∨ n.ip = m.ip + width ∨ ∃ destination, effect = .jump destination := by
  cases h with
  | overflows | waits | halts => exact Or.inl rfl
  | stores | outputs | passes | rebases => exact Or.inr (Or.inl rfl)
  | jumps => exact Or.inr (Or.inr ⟨_, rfl⟩)

/-- A step moves the instruction pointer back only by a jump that it takes. -/
theorem ip_stepWith (ask : σ → Option Word × σ) (s : σ) (hover : m.isOver = false) :
    m.ip ≤ (m.stepWith ask s).1.ip ∨
      m.completes ask s = true ∧ (m.stepWith ask s).1.status = .running ∧
        m.TakesJump (m.stepWith ask s).1.ip := by
  rcases hresolved : m.resolved with cause | ⟨i, effect⟩
  · rw [stepWith_eq hover, hresolved]
    exact Or.inl (Int.le_refl m.ip)
  · have hstep : m.stepWith ask s = m.fetched.commit ask s i.width effect := by
      rw [stepWith_eq hover, hresolved]
    rcases (commits_commit ask m.fetched s i.width effect).ip_eq_or with hip | hip | ⟨destination, rfl⟩
    · rw [hstep, hip]
      exact Or.inl (Int.le_refl m.ip)
    · rw [hstep, hip]
      exact Or.inl (Int.le_add_of_nonneg_right (Int.natCast_nonneg i.width))
    · obtain ⟨hdecoded, hyields⟩ := decoded_of_resolved hresolved
      cases hyields with
      | @jump tested _ hpasses htested hdestination =>
        refine Or.inr ⟨?_, by rw [hstep]; rfl, i, tested, hdecoded, hpasses, ?_, ?_⟩
        · rw [completes, hover, hstep]
          rfl
        · rw [← eval_load]
          exact htested
        · rw [← eval_load, hstep]
          exact hdestination

/-! ## Stranded machines -/

/-- The instruction pointer is negative, and if that has been found out, the machine has faulted with
it. -/
structure IsStranded (m : Machine) : Prop where
  ip_neg : m.ip < 0
  live_or_faulted : m.isOver = false ∨ m.status = .faulted ⟨.negativeAddress m.ip, m.ip⟩

/-- A negative instruction pointer is found out before any cell is touched. -/
theorem stepWith_of_ip_neg (ask : σ → Option Word × σ) (s : σ) (hover : m.isOver = false)
    (hneg : m.ip < 0) : m.stepWith ask s = (m.fail (.negativeAddress m.ip), s) := by
  have hinstruction : m.context.instruction = .fault (.negativeAddress m.ip) := by
    have haddress : Context.address m.ip = .fault (.negativeAddress m.ip) := if_pos hneg
    show (Context.address m.ip >>= _ : Fetch Instruction) = _
    rw [haddress]
    rfl
  have hplan : m.context.plan = .fault (.negativeAddress m.ip) := by
    rw [Context.plan, hinstruction]
    rfl
  rw [stepWith, if_neg (by simp [hover]), hplan]
  rfl

/-- A step of a stranded machine faults with its instruction pointer, and does nothing else. -/
theorem IsStranded.stepWith (h : m.IsStranded) (ask : σ → Option Word × σ) (s : σ) :
    (m.stepWith ask s).1 = m.fail (.negativeAddress m.ip) ∧ m.completes ask s = false := by
  rcases h.live_or_faulted with hover | hfaulted
  · rw [completes, hover, stepWith_of_ip_neg ask s hover h.ip_neg]
    exact ⟨rfl, rfl⟩
  · have hover : m.isOver = true := by rw [isOver, hfaulted]
    have hsame : m.fail (.negativeAddress m.ip) = m := by rw [fail, ← hfaulted]
    rw [completes, hover, stepWith_of_isOver hover, hsame]
    exact ⟨rfl, rfl⟩

theorem isStranded_fail (h : m.ip < 0) : (m.fail (.negativeAddress m.ip)).IsStranded :=
  ⟨h, Or.inr rfl⟩

/-- Nothing that happens to a stranded machine moves it or touches a cell. -/
theorem IsStranded.play (h : m.IsStranded) (ask : σ → Option Word × σ) (events : List Event) (s : σ) :
    (m.play ask events s).1.IsStranded ∧ (m.play ask events s).1.ip = m.ip ∧
      (m.play ask events s).1.memory = m.memory := by
  induction events generalizing m s with
  | nil => exact ⟨h, rfl, rfl⟩
  | cons event events ih =>
    cases event with
    | queue words => exact ih (m := m.extend words) ⟨h.ip_neg, h.live_or_faulted⟩ s
    | step =>
      rw [Machine.play, (h.stepWith ask s).1]
      exact ih (isStranded_fail h.ip_neg) _

/-- A machine that was not stranded to begin with is so only by the last jump that it has taken. -/
theorem nonneg_or_stranded_play (ask : σ → Option Word × σ) (events : List Event) (s : σ)
    (h : 0 ≤ m.ip) :
    let n := (m.play ask events s).1
    0 ≤ n.ip ∨ n.IsStranded ∧
      ∃ p, (history ask events m s).getLast? = some p ∧ p.TakesJump n.ip := by
  -- by induction from the end, since it is the last jump that counts
  induction events using List.reverseRecOn with
  | nil => exact Or.inl h
  | append_singleton events event ih =>
    intro n
    have hn : n = ((m.play ask events s).1.play ask [event] (m.play ask events s).2).1 :=
      congrArg Prod.fst (play_append ask events [event] m s)
    rw [hn, history_append]
    generalize hl : m.play ask events s = l at ih ⊢
    obtain ⟨l, t⟩ := l
    cases event with
    | queue words =>
      rw [show history ask [.queue words] l t = [] from rfl, List.append_nil]
      exact ih.imp_right fun ⟨hstranded, hlast⟩ =>
        ⟨⟨hstranded.ip_neg, hstranded.live_or_faulted⟩, hlast⟩
    | step =>
      rw [show history ask [.step] l t = (if l.completes ask t then [l] else []) ++ [] from rfl,
        List.append_nil]
      show 0 ≤ (l.stepWith ask t).1.ip ∨ (l.stepWith ask t).1.IsStranded ∧
        ∃ p : Machine, _ ∧ p.TakesJump (l.stepWith ask t).1.ip
      rcases ih with hnonneg | ⟨hstranded, hlast⟩
      · cases hover : l.isOver with
        | true =>
          rw [stepWith_of_isOver hover]
          exact Or.inl hnonneg
        | false =>
          rcases ip_stepWith ask t hover with hle | ⟨hcompletes, hrunning, hjump⟩
          · exact Or.inl (Int.le_trans hnonneg hle)
          · rcases Int.lt_or_le (l.stepWith ask t).1.ip 0 with hneg | hnonneg
            · refine Or.inr ⟨⟨hneg, Or.inl ?_⟩, l, ?_, hjump⟩
              · rw [isOver, hrunning]
              · rw [if_pos hcompletes, List.getLast?_concat]
            · exact Or.inl hnonneg
      · obtain ⟨hstep, hcompletes⟩ := hstranded.stepWith ask t
        rw [hstep, if_neg (by simp [hcompletes]), List.append_nil]
        exact Or.inr ⟨isStranded_fail hstranded.ip_neg, hlast⟩

/-- **Addresses stay legal.** Set up a machine for a program, with any source of input, queue words and
let it take steps in any order. No negative address is ever touched, and the cells of the image always
are. A step leaves every touched cell touched, changes at most one word and touches at most seven
cells. The instruction pointer is negative only if the last instruction that was completed is a jump
that was taken, and led there; and then every later step faults with just that address, at that address,
and touches no cell. -/
theorem addresses_stay_legal {σ : Type} (ask : σ → Option Word × σ) (program : Program)
    (config : Config) (events : List Event) (s : σ) :
    let m := ofProgram program config
    let n := (m.play ask events s).1
    let t := (m.play ask events s).2
    let next := (n.stepWith ask t).1
    (∀ a, n.memory.contains a = true → 0 ≤ a) ∧
    (∀ i : Nat, i < program.words.length → n.memory.contains i = true) ∧
    (∀ a, n.memory.contains a = true → next.memory.contains a = true) ∧
    (∃ target, ∀ a, a ≠ target → next.memory.get a = n.memory.get a) ∧
    next.memory.size ≤ n.memory.size + 7 ∧
    (n.ip < 0 →
      (∃ p, (history ask events m s).getLast? = some p ∧ p.TakesJump n.ip) ∧
      ∀ later,
        (n.play ask (later ++ [.step]) t).1.status = .faulted ⟨.negativeAddress n.ip, n.ip⟩ ∧
        (n.play ask (later ++ [.step]) t).1.ip = n.ip ∧
        (n.play ask (later ++ [.step]) t).1.memory = n.memory) := by
  intro m n t next
  refine ⟨isLegal_play ask events s (Memory.isLegal_ofProgram program), fun i hi => ?_,
    fun a => contains_stepWith ask t, exists_get_stepWith_eq ask n t, size_stepWith_le ask n t,
    fun hneg => ?_⟩
  · exact contains_play ask events s ((Memory.contains_ofProgram program i).mpr ⟨i, rfl, hi⟩)
  · have hstart : 0 ≤ m.ip := Int.le_refl 0
    obtain ⟨hstranded, hlast⟩ :=
      (nonneg_or_stranded_play ask events s hstart).resolve_left (Int.not_le.mpr hneg)
    refine ⟨hlast, fun later => ?_⟩
    obtain ⟨hlater, hip, hmemory⟩ := hstranded.play ask later t
    rw [play_concat_step, (hlater.stepWith ask _).1, hip]
    exact ⟨by rw [fail, hip], hip, hmemory⟩

/-- A program stores the word that it gets from its source as the destination of its own next jump, and
that word is negative. -/
theorem addresses_stay_legal_jump :
    let ask : Nat → Option Word × Nat := fun calls => (some (-7), calls + 1)
    let program : Program := ⟨[3, 4, 1105, 1, 0]⟩
    let events : List Event := [.step, .queue [9], .step]
    let m := ofProgram program {}
    let n := (m.play ask events 0).1
    let later := [Event.queue [8], .step]
    n.ip = -7 ∧ n.ip < 0 ∧ n.memory.contains 4 = true ∧ (0 : Word) ≤ 4 ∧
      (∃ p, (history ask events m 0).getLast? = some p ∧ p.TakesJump n.ip) ∧
      (n.play ask (later ++ [.step]) 1).1.status = .faulted ⟨.negativeAddress n.ip, n.ip⟩ ∧
      (n.play ask (later ++ [.step]) 1).1.ip = n.ip ∧
      (n.play ask (later ++ [.step]) 1).1.memory = n.memory := by
  intro ask program events m n later
  have hip : n.ip = -7 := by decide +kernel
  have hneg : n.ip < 0 := by rw [hip]; decide
  have hsource : (m.play ask events 0).2 = 1 := by decide +kernel
  have hstay := addresses_stay_legal ask program {} events 0
  -- with the machine written out, nothing below has it computed again
  simp only [n, m] at hip hneg hsource hstay ⊢
  simp only [hsource] at hstay
  obtain ⟨hlegal, himage, -, -, -, hjump⟩ := hstay
  have hcell := himage 4 (by decide)
  obtain ⟨hlast, hlater⟩ := hjump hneg
  exact ⟨hip, hneg, hcell, hlegal 4 hcell, hlast, hlater later⟩

end Machine

end Intcode
