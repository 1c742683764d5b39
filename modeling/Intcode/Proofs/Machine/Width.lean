import Intcode.Proofs.Machine.Access
import Intcode.Proofs.Machine.Capabilities
import Intcode.Proofs.Machine.LifeCycle

/-!
# Sixty-four bits

A machine of 64 bits checks what it computes and what it takes in, but not the words of its image. So
words outside the range get into it, and a program can load them, compute with them, jump to them and
put them out. What it cannot do is to have them anywhere else: a word outside the range that is found in
memory is the image's own and stands where the image has it.

## Shape of the proof

`Machine.Restrained` says what one instruction can bring about: a new base or a new word in a cell fits,
and a new word in the output slot is one that was in memory before (`Machine.restrained_stepWith`).
`Rig.IsBounded` is what that leaves true of a machine with a given image, whatever is done with it short
of writing to its memory from outside.
-/

namespace Intcode

/-- The words that 64 bits hold. -/
def Word.InRange (word : Word) : Prop :=
  -2 ^ 63 ≤ word ∧ word < 2 ^ 63

instance : DecidablePred Word.InRange :=
  fun _ => inferInstanceAs (Decidable (_ ∧ _))

theorem Word.inRange_zero : Word.InRange 0 := by
  decide

namespace Context

variable {contents : Word → Word} {c : Context}

/-! ## What is put out -/

/-- The value of a parameter is the word at some address: an immediate one is read from its place
behind the instruction. -/
theorem exists_of_eval_load {mode : Mode} {param : Nat} {value : Word}
    (h : (c.load mode param).eval contents = .ok value) : ∃ a, value = contents a := by
  obtain ⟨word, hword, h⟩ := Fetch.exists_of_eval_bind h
  cases mode with
  | immediate =>
    obtain rfl : word = value := Except.ok.inj h
    exact ⟨c.ip + param, (Except.ok.inj hword).symm⟩
  | position | relative =>
    obtain ⟨a, -, h⟩ := Fetch.exists_of_eval_bind h
    exact ⟨a, (Except.ok.inj h).symm⟩

end Context

namespace Machine

variable {σ : Type} {m n : Machine}

/-- A word that the next instruction puts out is one that is in memory. -/
theorem exists_of_resolved_output {i : Instruction} {value : Word}
    (h : m.resolved = .ok (i, .output value)) : ∃ a, value = m.memory.get a := by
  obtain ⟨-, hyields⟩ := decoded_of_resolved h
  cases hyields with
  | output _ hload => exact Context.exists_of_eval_load hload

/-! ## What an instruction can bring about -/

/-- The machine `n` has no new word that does not fit, neither for its base nor in a cell, and no word
in its slot that was neither there nor in memory before. -/
structure Restrained (m n : Machine) : Prop where
  config_eq : n.config = m.config
  base : n.base = m.base ∨ m.config.width.fits n.base = true
  get : ∀ a, n.memory.get a = m.memory.get a ∨ m.config.width.fits (n.memory.get a) = true
  slot : n.slot = m.slot ∨ ∃ a, n.slot = some (m.memory.get a)

theorem restrained_self (m : Machine) : m.Restrained m :=
  ⟨rfl, Or.inl rfl, fun _ => Or.inl rfl, Or.inl rfl⟩

/-- No effect goes further, provided that what it puts out is in memory. -/
theorem Commits.restrained {width : Nat} {effect : Effect} (h : m.Commits width effect n)
    (houtput : ∀ value, effect = .output value → ∃ a, value = m.memory.get a) : m.Restrained n := by
  cases h with
  | stores queue _ hfits =>
    refine ⟨rfl, Or.inl rfl, fun a => ?_, Or.inl rfl⟩
    simp only [advance, Memory.get_write]
    split
    · exact Or.inr hfits
    · exact Or.inl rfl
  | rebases hfits => exact ⟨rfl, Or.inr hfits, fun _ => Or.inl rfl, Or.inl rfl⟩
  | outputs =>
    obtain ⟨a, rfl⟩ := houtput _ rfl
    exact ⟨rfl, Or.inl rfl, fun _ => Or.inl rfl, Or.inr ⟨a, rfl⟩⟩
  | overflows | waits | jumps | passes | halts =>
    exact ⟨rfl, Or.inl rfl, fun _ => Or.inl rfl, Or.inl rfl⟩

/-- No step goes further. -/
theorem restrained_stepWith (ask : σ → Option Word × σ) (m : Machine) (s : σ) :
    m.Restrained (m.stepWith ask s).1 := by
  -- resolving an instruction changes no word, so what holds from then on holds of the whole step
  have hfetched {n : Machine} (h : m.fetched.Restrained n) : m.Restrained n :=
    ⟨h.config_eq, h.base, fun a => by simpa using h.get a, by simpa using h.slot⟩
  cases hover : m.isOver with
  | true =>
    rw [stepWith_of_isOver hover]
    exact restrained_self m
  | false =>
    rw [stepWith_eq hover]
    rcases hresolved : m.resolved with cause | ⟨i, effect⟩
    · exact hfetched ⟨rfl, Or.inl rfl, fun _ => Or.inl rfl, Or.inl rfl⟩
    · refine hfetched ((commits_commit ask m.fetched s i.width effect).restrained ?_)
      rintro value rfl
      obtain ⟨a, hvalue⟩ := exists_of_resolved_output hresolved
      exact ⟨a, hvalue.trans (m.get_fetched a).symm⟩

/-! ## Input that does not fit -/

/-- An input instruction that gets a word that does not fit faults with it and changes no word in
memory. -/
theorem stepWith_of_input_not_fits {ask : σ → Option Word × σ} {s : σ} {i : Instruction}
    {target word : Word} (hover : m.isOver = false) (hresolved : m.resolved = .ok (i, .input target))
    (hword : (m.nextInput ask s).1 = some word) (hfits : m.config.width.fits word = false) :
    (m.stepWith ask s).1.status = .faulted ⟨.overflow word, m.ip⟩ ∧
      ∀ a, (m.stepWith ask s).1.memory.get a = m.memory.get a := by
  have hfail : ({ m.fetched with queue := m.queue.tail } : Machine).store target word i.width =
      ({ m.fetched with queue := m.queue.tail } : Machine).fail (.overflow word) :=
    store_of_not_fits hfits
  rw [stepWith_of_input hover hresolved hword, hfail]
  exact ⟨rfl, m.get_fetched⟩

end Machine

namespace Rig

variable {σ : Type} {ask : σ → Option Word × σ} {rig next : Rig σ} {program : Program}

/-! ## Edits -/

/-- An edit that does not write changes no word in memory. -/
theorem get_apply {edit : Edit σ} (h : ∀ address value, edit ≠ .write address value) (rig : Rig σ)
    (a : Word) : (edit.apply rig).machine.memory.get a = rig.machine.memory.get a := by
  cases edit with
  | write address value => exact absurd rfl (h address value)
  | read address => exact Memory.get_touch _ _ _
  | push | extend | pushLine | takeOutput | attach | detach | fork => rfl

theorem config_apply (edit : Edit σ) (rig : Rig σ) :
    (edit.apply rig).machine.config = rig.machine.config := by
  cases edit <;> rfl

/-- No edit puts a word into the slot. -/
theorem slot_apply (edit : Edit σ) (rig : Rig σ) :
    (edit.apply rig).machine.slot = rig.machine.slot ∨ (edit.apply rig).machine.slot = none := by
  cases edit with
  | takeOutput => exact Or.inr rfl
  | push | extend | pushLine | attach | detach | fork | write | read => exact Or.inl rfl

/-! ## Words of the image -/

/-- A machine of 64 bits with an image that was not written to from outside: a word outside the range
is in memory only where the image has it, and in the slot only if the image has it at all. -/
structure IsBounded (program : Program) (rig : Rig σ) : Prop where
  width_eq : rig.machine.config.width = .bits64
  base : rig.machine.base.InRange
  get : ∀ a, (rig.machine.memory.get a).InRange ∨
    ∃ i : Nat, a = i ∧ program.words[i]? = some (rig.machine.memory.get a)
  slot : ∀ word, rig.machine.slot = some word → word.InRange ∨ word ∈ program.words

/-- On a machine of 64 bits, what fits is in the range. -/
theorem inRange_of_fits (hwidth : rig.machine.config.width = .bits64) {word : Word}
    (h : rig.machine.config.width.fits word = true) : word.InRange := by
  by_contra hrange
  rw [Machine.fits_eq_false_iff.mpr ⟨hwidth, hrange⟩] at h
  cases h

theorem isBounded_ofProgram {config : Config} (h : config.width = .bits64) :
    IsBounded program (ofProgram program config : Rig σ) where
  width_eq := h
  base := Word.inRange_zero
  get a := by
    cases hcontains : (Memory.ofProgram program).contains a with
    | false =>
      left
      have hzero : (Memory.ofProgram program).get a = 0 := Memory.get_eq_zero hcontains
      show Word.InRange ((Memory.ofProgram program).get a)
      rw [hzero]
      exact Word.inRange_zero
    | true =>
      obtain ⟨i, rfl, hi⟩ := (Memory.contains_ofProgram program a).mp hcontains
      have hword := List.getElem?_eq_getElem hi
      exact Or.inr ⟨i, rfl, hword.trans (congrArg some (Memory.get_ofProgram hword).symm)⟩
  slot word hslot := by cases hslot

/-- A step stores no word outside the range, and loads none that is not the image's. -/
theorem IsBounded.step (h : IsBounded program rig) : IsBounded program (rig.step ask) := by
  have hstep := Machine.restrained_stepWith (consult ask) rig.machine rig.source
  refine ⟨?_, ?_, fun a => ?_, fun word hword => ?_⟩
  · exact (congrArg Config.width hstep.config_eq).trans h.width_eq
  · rcases hstep.base with hsame | hfits
    · exact hsame ▸ h.base
    · exact inRange_of_fits h.width_eq hfits
  · rcases hstep.get a with hsame | hfits
    · exact hsame ▸ h.get a
    · exact Or.inl (inRange_of_fits h.width_eq hfits)
  · rcases hstep.slot with hsame | ⟨a, hloaded⟩
    · exact h.slot word (hsame ▸ hword)
    · obtain rfl : rig.machine.memory.get a = word := Option.some.inj (hloaded.symm.trans hword)
      rcases h.get a with hrange | ⟨i, -, hi⟩
      · exact Or.inl hrange
      · exact Or.inr (List.mem_of_getElem? hi)

/-- Nor does an edit that does not write. -/
theorem IsBounded.apply (h : IsBounded program rig) {edit : Edit σ}
    (hedit : ∀ address value, edit ≠ .write address value) : IsBounded program (edit.apply rig) where
  width_eq := config_apply edit rig ▸ h.width_eq
  base := base_apply edit rig ▸ h.base
  get a := get_apply hedit rig a ▸ h.get a
  slot word hword := by
    rcases slot_apply edit rig with hsame | hnone
    · exact h.slot word (hsame ▸ hword)
    · cases hnone.symm.trans hword

/-- What is done with a bounded machine leaves it bounded, unless it is written to. -/
theorem Performs.isBounded {operations : List (Operation σ)} {answers : List Answer}
    (h : Performs ask operations rig answers next)
    (hunwritten : ∀ address value, .edit (.write address value) ∉ operations)
    (hrig : IsBounded program rig) : IsBounded program next := by
  refine h.invariant_of_mem (fun edit hmem rig hrig => hrig.apply ?_) (fun rig hrig => hrig.step) hrig
  rintro address value rfl
  exact hunwritten address value hmem

/-- Of the words in memory, whatever is done with a machine of 64 bits replaces each by one in the
range, if at all. -/
theorem Performs.get_eq_or_inRange {operations : List (Operation σ)} {answers : List Answer}
    (h : Performs ask operations rig answers next)
    (hunwritten : ∀ address value, .edit (.write address value) ∉ operations)
    (hwidth : rig.machine.config.width = .bits64) (a : Word) :
    next.machine.memory.get a = rig.machine.memory.get a ∨
      (next.machine.memory.get a).InRange := by
  suffices hboth : next.machine.config.width = .bits64 ∧
      (next.machine.memory.get a = rig.machine.memory.get a ∨
        (next.machine.memory.get a).InRange) from hboth.2
  refine h.invariant_of_mem (P := fun later => later.machine.config.width = .bits64 ∧
    (later.machine.memory.get a = rig.machine.memory.get a ∨
      (later.machine.memory.get a).InRange)) ?_ ?_ ⟨hwidth, Or.inl rfl⟩
  · intro edit hmem later hlater
    rw [config_apply, get_apply]
    · exact hlater
    · rintro address value rfl
      exact hunwritten address value hmem
  · rintro later ⟨hlater, hget⟩
    have hstep := Machine.restrained_stepWith (consult ask) later.machine later.source
    refine ⟨(congrArg Config.width hstep.config_eq).trans hlater, ?_⟩
    rcases hstep.get a with hsame | hfits
    · exact hsame ▸ hget
    · exact Or.inr (inRange_of_fits hlater hfits)

/-- **Words stay in range.** Take any machine of 64 bits that was set up for a program and then used in
any way, except that nothing was written to its memory from outside; a source of input may be attached,
and the machine may have faulted. Its relative base is in the range. So is the word in every cell,
unless it is the word that the image has for just that address, and so is the word in the output slot,
unless it is one of the image's. A cell that is given another word, by whatever is done later, is given
one in the range. And an input instruction that gets a word outside the range faults with it and leaves
every cell as it was. -/
theorem words_stay_in_range {σ : Type} {ask : σ → Option Word × σ} {program : Program}
    {config : Config} {operations : List (Operation σ)} {answers : List Answer} {rig : Rig σ}
    (hwidth : config.width = .bits64)
    (hunwritten : ∀ address value, .edit (.write address value) ∉ operations)
    (h : Performs ask operations (ofProgram program config) answers rig) :
    rig.machine.base.InRange ∧
    (∀ a, (rig.machine.memory.get a).InRange ∨
      ∃ i : Nat, a = i ∧ program.words[i]? = some (rig.machine.memory.get a)) ∧
    (∀ word, rig.machine.slot = some word → word.InRange ∨ word ∈ program.words) ∧
    (∀ {later : List (Operation σ)} {answers : List Answer} {next : Rig σ},
      (∀ address value, .edit (.write address value) ∉ later) →
        Performs ask later rig answers next → ∀ a,
          next.machine.memory.get a = rig.machine.memory.get a ∨
            (next.machine.memory.get a).InRange) ∧
    ∀ i target word, rig.machine.isOver = false →
      rig.machine.resolved = .ok (i, .input target) →
      (rig.machine.nextInput (consult ask) rig.source).1 = some word → ¬ word.InRange →
        (rig.step ask).machine.status = .faulted ⟨.overflow word, rig.machine.ip⟩ ∧
        ∀ a, (rig.step ask).machine.memory.get a = rig.machine.memory.get a := by
  have hbounded : IsBounded program rig := h.isBounded hunwritten (isBounded_ofProgram hwidth)
  refine ⟨hbounded.base, hbounded.get, hbounded.slot, ?_, ?_⟩
  · exact fun hlater hperforms => hperforms.get_eq_or_inRange hlater hbounded.width_eq
  · intro i target word hover hresolved hword hrange
    exact Machine.stepWith_of_input_not_fits hover hresolved hword
      (Machine.fits_eq_false_iff.mpr ⟨hbounded.width_eq, hrange⟩)

/-- A machine moves its base, puts out a literal of its image that is too large, and is about to
overwrite that literal with an input word that is too small: the literal stays. -/
theorem words_stay_in_range_literal :
    let ask : Unit → Option Word × Unit := Machine.noSource
    let program : Program := ⟨[109, 5, 104, 9223372036854775808, 3, 3, 99]⟩
    let start : Rig Unit := ofProgram program { width := .bits64 }
    let moved := ((Edit.push (-9223372036854775809)).apply start).step ask
    let rig := moved.step ask
    Performs ask [.edit (.push (-9223372036854775809)), .step, .run] start
        [.done, .status (moved.machine.answer moved.machine.status),
          .status (rig.machine.answer rig.machine.status)] rig ∧
      rig.machine.base = 5 ∧ rig.machine.base.InRange ∧
      rig.machine.memory.get 3 = 9223372036854775808 ∧
      ¬ (rig.machine.memory.get 3).InRange ∧
      rig.machine.slot = some 9223372036854775808 ∧
      ((9223372036854775808 : Word).InRange ∨ 9223372036854775808 ∈ program.words) ∧
      (rig.step ask).machine.status = .faulted ⟨.overflow (-9223372036854775809), 4⟩ ∧
      (rig.step ask).machine.memory.get 3 = rig.machine.memory.get 3 := by
  intro ask program start moved rig
  have hrun : moved.machine.runWith (consult ask) 1 moved.source = some (rig.machine, rig.source) :=
    if_neg (by decide +kernel)
  have hperforms : Performs ask [.edit (.push (-9223372036854775809)), .step, .run] start _ rig :=
    .cons (.edit (.push (-9223372036854775809)) _) (.cons (.step _) (.cons (.run hrun) (.nil rig)))
  have hbase : rig.machine.base = 5 := by decide +kernel
  have hcell : rig.machine.memory.get 3 = 9223372036854775808 := by decide +kernel
  have hslot : rig.machine.slot = some 9223372036854775808 := by decide +kernel
  have hip : rig.machine.ip = 4 := by decide +kernel
  have hover : rig.machine.isOver = false := by decide +kernel
  have hresolved : rig.machine.resolved = .ok (⟨.input, .position, .position, .position⟩, .input 3) :=
    by decide +kernel
  have hword : (rig.machine.nextInput (consult ask) rig.source).1 = some (-9223372036854775809) := by
    decide +kernel
  obtain ⟨hrange, -, houtput, -, hinput⟩ := words_stay_in_range rfl (by simp) hperforms
  obtain ⟨hstatus, hkept⟩ := hinput _ 3 _ hover hresolved hword (by decide)
  refine ⟨hperforms, hbase, hrange, hcell, ?_, hslot, houtput _ hslot, hip ▸ hstatus, hkept 3⟩
  rw [hcell]
  decide

end Rig

end Intcode
