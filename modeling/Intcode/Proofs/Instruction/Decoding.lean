import Mathlib.Algebra.Ring.Int.Defs
import Mathlib.Data.Nat.Find
import Intcode.Instruction

/-!
# Which words are instructions

`Instruction.encode` writes an instruction as a word, and `Instruction.decode` reads back exactly the
words that are written so. Every other word is refused, and `Refused` is the rule for that: it speaks
of the decimal digits of the word and of nothing that decoding does. The opcode is the two lowest
digits, and the mode of parameter `k` is the digit with `k + 1` digits below it.

## Shape of the proof

A word is that of an instruction or the rule refuses it (`exists_eq_encode_or_refused`), which is a
fact about digits. Decoding answers rightly in either case (`decode_encode`, `decode_of_refused`), and
as it has one answer only, that is all there is to it (`decode_inverts_encode`).
-/

namespace Intcode.Instruction

/-- The digit of a word with the given number of digits below it. -/
def digitAt (word : Int) (below : Nat) : Int :=
  word / 10 ^ below % 10

/-- A word without a sign that 64 bits can hold. -/
structure IsNarrow (word : Int) : Prop where
  nonneg : 0 ≤ word
  lt : word < 2 ^ 64

/-- The two lowest digits of a word name an operation. -/
def NamesOpcode (word : Int) : Prop :=
  ∃ op : Opcode, (op.code : Int) = word % 100

/-- Why a word is no instruction: a sign, more than 64 bits, an opcode that does not exist, else the
lowest digit that is no mode, else digits above the modes. -/
inductive Refused (word : Int) : DecodeError → Prop
  | sign : word < 0 → Refused word (.negativeWord word)
  | wide : 2 ^ 64 ≤ word → Refused word (.excessModeDigits word)
  | opcode : IsNarrow word → ¬ NamesOpcode word → Refused word (.unknownOpcode (word % 100).toNat)
  | mode (param : Nat) : IsNarrow word → NamesOpcode word → 1 ≤ param → param ≤ 3 →
      2 < digitAt word (param + 1) →
      (∀ lower, 1 ≤ lower → lower < param → digitAt word (lower + 1) ≤ 2) →
      Refused word (.invalidMode param (digitAt word (param + 1)).toNat)
  | excess : IsNarrow word → NamesOpcode word →
      (∀ param, 1 ≤ param → param ≤ 3 → digitAt word (param + 1) ≤ 2) →
      100000 ≤ word → Refused word (.excessModeDigits word)

variable {word : Int}

/-! ## Digits -/

theorem digitAt_nonneg (word : Int) (below : Nat) : 0 ≤ digitAt word below :=
  Int.emod_nonneg _ (by decide)

/-- A word below a hundred thousand is its opcode and three digits. -/
theorem eq_add_digits (hnonneg : 0 ≤ word) (hlt : word < 100000) :
    word = word % 100 + 100 * digitAt word 2 + 1000 * digitAt word 3 + 10000 * digitAt word 4 := by
  simp only [digitAt]
  omega

/-- A digit of at most two is that of a mode. -/
theorem exists_mode_of_le {digit : Int} (hnonneg : 0 ≤ digit) (hle : digit ≤ 2) :
    ∃ mode : Mode, (mode.digit : Int) = digit := by
  obtain rfl | rfl | rfl : digit = 0 ∨ digit = 1 ∨ digit = 2 := by omega
  · exact ⟨.position, rfl⟩
  · exact ⟨.immediate, rfl⟩
  · exact ⟨.relative, rfl⟩

/-- A word with an opcode and three modes and nothing above them is that of an instruction. -/
theorem exists_eq_encode (hnonneg : 0 ≤ word) (hlt : word < 100000) (hopcode : NamesOpcode word)
    (hmodes : ∀ param, 1 ≤ param → param ≤ 3 → digitAt word (param + 1) ≤ 2) :
    ∃ i : Instruction, word = i.encode := by
  obtain ⟨op, hop⟩ := hopcode
  obtain ⟨first, hfirst⟩ := exists_mode_of_le (digitAt_nonneg _ _) (hmodes 1 (by decide) (by decide))
  obtain ⟨second, hsecond⟩ :=
    exists_mode_of_le (digitAt_nonneg _ _) (hmodes 2 (by decide) (by decide))
  obtain ⟨third, hthird⟩ := exists_mode_of_le (digitAt_nonneg _ _) (hmodes 3 (by decide) (by decide))
  refine ⟨⟨op, first, second, third⟩, ?_⟩
  rw [encode, hop, hfirst, hsecond, hthird]
  exact eq_add_digits hnonneg hlt

/-- A digit among the modes that is above two has a lowest one like it. -/
theorem exists_lowest_mode (h : ∃ param, 1 ≤ param ∧ param ≤ 3 ∧ 2 < digitAt word (param + 1)) :
    ∃ param, 1 ≤ param ∧ param ≤ 3 ∧ 2 < digitAt word (param + 1) ∧
      ∀ lower, 1 ≤ lower → lower < param → digitAt word (lower + 1) ≤ 2 := by
  classical
  obtain ⟨hone, hthree, hdigit⟩ := Nat.find_spec h
  refine ⟨Nat.find h, hone, hthree, hdigit, fun lower hlower hlt => ?_⟩
  by_contra hnot
  exact Nat.find_min h hlt ⟨hlower, by omega, by omega⟩

/-- Every word is that of an instruction or refused. -/
theorem exists_eq_encode_or_refused (word : Int) :
    (∃ i : Instruction, word = i.encode) ∨ ∃ e, Refused word e := by
  by_cases hsign : word < 0
  · exact Or.inr ⟨_, .sign hsign⟩
  by_cases hwide : 2 ^ 64 ≤ word
  · exact Or.inr ⟨_, .wide hwide⟩
  have hnarrow : IsNarrow word := ⟨by omega, by omega⟩
  by_cases hunnamed : ¬ NamesOpcode word
  · exact Or.inr ⟨_, .opcode hnarrow hunnamed⟩
  have hopcode := not_not.mp hunnamed
  by_cases hmode : ∃ param, 1 ≤ param ∧ param ≤ 3 ∧ 2 < digitAt word (param + 1)
  · obtain ⟨param, hone, hthree, hdigit, hlower⟩ := exists_lowest_mode hmode
    exact Or.inr ⟨_, .mode param hnarrow hopcode hone hthree hdigit hlower⟩
  have hmodes : ∀ param, 1 ≤ param → param ≤ 3 → digitAt word (param + 1) ≤ 2 := by
    intro param hone hthree
    by_contra hnot
    exact hmode ⟨param, hone, hthree, by omega⟩
  by_cases hexcess : 100000 ≤ word
  · exact Or.inr ⟨_, .excess hnarrow hopcode hmodes hexcess⟩
  · exact Or.inl (exists_eq_encode hnarrow.nonneg (by omega) hopcode hmodes)

/-! ## Reading the parts -/

theorem ofCode_code (op : Opcode) : Opcode.ofCode op.code = .ok op := by
  rw [Opcode.ofCode, Opcode.ofCode?_code]

theorem ofDigit_digit (param : Nat) (mode : Mode) : Mode.ofDigit param mode.digit = .ok mode := by
  rw [Mode.ofDigit, Mode.ofDigit?_digit]

theorem exists_ofCode_eq_ok (h : NamesOpcode word) :
    ∃ op, Opcode.ofCode (word % 100).toNat = .ok op := by
  obtain ⟨op, hop⟩ := h
  rw [← hop, Int.toNat_natCast]
  exact ⟨op, ofCode_code op⟩

/-- An opcode that does not exist is refused. -/
theorem ofCode_of_not_namesOpcode (h : ¬ NamesOpcode word) :
    Opcode.ofCode (word % 100).toNat = .error (.unknownOpcode (word % 100).toNat) := by
  rw [Opcode.ofCode]
  cases hop : Opcode.ofCode? (word % 100).toNat with
  | none => rfl
  | some op =>
    have hcode := Opcode.ofCode?_eq_some_iff.mp hop
    exact absurd ⟨op, by omega⟩ h

theorem exists_ofDigit_eq_ok (param : Nat) {digit : Int} (hnonneg : 0 ≤ digit) (hle : digit ≤ 2) :
    ∃ mode, Mode.ofDigit param digit.toNat = .ok mode := by
  obtain ⟨mode, hmode⟩ := exists_mode_of_le hnonneg hle
  rw [← hmode, Int.toNat_natCast]
  exact ⟨mode, ofDigit_digit param mode⟩

/-- A digit above two is refused. -/
theorem ofDigit_of_two_lt (param : Nat) {digit : Int} (h : 2 < digit) :
    Mode.ofDigit param digit.toNat = .error (.invalidMode param digit.toNat) := by
  rw [Mode.ofDigit]
  cases hmode : Mode.ofDigit? digit.toNat with
  | none => rfl
  | some mode =>
    have hdigit := Mode.ofDigit?_eq_some_iff.mp hmode
    have hlt := mode.digit_lt
    omega

/-! ## Decoding -/

/-- A word without a sign that 64 bits can hold is read digit by digit from the lowest up. -/
theorem decode_of_isNarrow (h : IsNarrow word) :
    decode word = (do
      let opcode ← Opcode.ofCode (word % 100).toNat
      let first ← Mode.ofDigit 1 (digitAt word 2).toNat
      let second ← Mode.ofDigit 2 (digitAt word 3).toNat
      let third ← Mode.ofDigit 3 (digitAt word 4).toNat
      if word < 100000 then return { opcode, first, second, third }
      else throw (.excessModeDigits word)) := by
  have hnonneg := h.nonneg
  have hlt : word < 0x10000000000000000 := h.lt
  have hcode : (word % 100).toNat = word.toNat % 100 := by omega
  have hfirst : (digitAt word 2).toNat = word.toNat / 100 % 10 := by
    simp only [digitAt]
    omega
  have hsecond : (digitAt word 3).toNat = word.toNat / 1000 % 10 := by
    simp only [digitAt]
    omega
  have hthird : (digitAt word 4).toNat = word.toNat / 10000 % 10 := by
    simp only [digitAt]
    omega
  have hrest : word < 100000 ↔ word.toNat / 100000 = 0 := by omega
  rw [decode, if_neg (Int.not_lt.mpr hnonneg), if_neg (Int.not_le.mpr hlt), ofDigits, hcode, hfirst,
    hsecond, hthird]
  simp only [hrest]

/-- The word of an instruction decodes to it. -/
theorem decode_encode (i : Instruction) : decode i.encode = .ok i := by
  obtain ⟨op, first, second, third⟩ := i
  have hop := op.code_lt
  have hfirst := first.digit_lt
  have hsecond := second.digit_lt
  have hthird := third.digit_lt
  obtain ⟨word, hword⟩ : ∃ word : Int, word = encode ⟨op, first, second, third⟩ := ⟨_, rfl⟩
  have hvalue : word = op.code + 100 * first.digit + 1000 * second.digit + 10000 * third.digit :=
    hword
  have hcode : word % 100 = op.code := by omega
  have h₁ : digitAt word 2 = first.digit := by
    simp only [digitAt]
    omega
  have h₂ : digitAt word 3 = second.digit := by
    simp only [digitAt]
    omega
  have h₃ : digitAt word 4 = third.digit := by
    simp only [digitAt]
    omega
  have hlt : word < 100000 := by omega
  rw [← hword, decode_of_isNarrow ⟨by omega, by omega⟩, hcode, h₁, h₂, h₃]
  simp only [Int.toNat_natCast, ofCode_code, ofDigit_digit]
  exact if_pos hlt

/-- A word that the rule refuses is refused so. -/
theorem decode_of_refused {e : DecodeError} (h : Refused word e) : decode word = .error e := by
  cases h with
  | sign hsign => rw [decode, if_pos hsign]
  | wide hwide =>
    have hle : 0x10000000000000000 ≤ word := hwide
    rw [decode, if_neg (Int.not_lt.mpr (by omega)), if_pos hle]
  | opcode hnarrow hunnamed =>
    rw [decode_of_isNarrow hnarrow, ofCode_of_not_namesOpcode hunnamed]
    rfl
  | mode param hnarrow hopcode hone hthree hdigit hlower =>
    obtain ⟨op, hop⟩ := exists_ofCode_eq_ok hopcode
    rw [decode_of_isNarrow hnarrow, hop]
    -- the digits below that of `param` are modes, so reading gets as far as it
    obtain rfl | rfl | rfl : param = 1 ∨ param = 2 ∨ param = 3 := by omega
    · rw [ofDigit_of_two_lt 1 hdigit]
      rfl
    · obtain ⟨first, hfirst⟩ :=
        exists_ofDigit_eq_ok 1 (digitAt_nonneg word 2) (hlower 1 (by decide) (by decide))
      rw [hfirst, ofDigit_of_two_lt 2 hdigit]
      rfl
    · obtain ⟨first, hfirst⟩ :=
        exists_ofDigit_eq_ok 1 (digitAt_nonneg word 2) (hlower 1 (by decide) (by decide))
      obtain ⟨second, hsecond⟩ :=
        exists_ofDigit_eq_ok 2 (digitAt_nonneg word 3) (hlower 2 (by decide) (by decide))
      rw [hfirst, hsecond, ofDigit_of_two_lt 3 hdigit]
      rfl
  | excess hnarrow hopcode hmodes hexcess =>
    obtain ⟨op, hop⟩ := exists_ofCode_eq_ok hopcode
    obtain ⟨first, hfirst⟩ :=
      exists_ofDigit_eq_ok 1 (digitAt_nonneg word 2) (hmodes 1 (by decide) (by decide))
    obtain ⟨second, hsecond⟩ :=
      exists_ofDigit_eq_ok 2 (digitAt_nonneg word 3) (hmodes 2 (by decide) (by decide))
    obtain ⟨third, hthird⟩ :=
      exists_ofDigit_eq_ok 3 (digitAt_nonneg word 4) (hmodes 3 (by decide) (by decide))
    rw [decode_of_isNarrow hnarrow, hop, hfirst, hsecond, hthird]
    exact if_neg (Int.not_lt.mpr hexcess)

theorem decode_eq_ok_iff {i : Instruction} : decode word = .ok i ↔ word = i.encode := by
  constructor
  · intro h
    rcases exists_eq_encode_or_refused word with ⟨j, rfl⟩ | ⟨e, he⟩
    · rw [decode_encode] at h
      cases h
      rfl
    · rw [decode_of_refused he] at h
      cases h
  · rintro rfl
    exact decode_encode i

theorem decode_eq_error_iff {e : DecodeError} : decode word = .error e ↔ Refused word e := by
  constructor
  · intro h
    rcases exists_eq_encode_or_refused word with ⟨i, rfl⟩ | ⟨e', he'⟩
    · rw [decode_encode] at h
      cases h
    · rw [decode_of_refused he'] at h
      cases h
      exact he'
  · exact decode_of_refused

/-- Digits in excess are named only where there are digits above the third mode. -/
theorem Refused.le_of_excessModeDigits {x : Word} (h : Refused word (.excessModeDigits x)) :
    x = word ∧ 100000 ≤ word := by
  cases h with
  | wide hwide => exact ⟨rfl, by omega⟩
  | excess _ _ _ hexcess => exact ⟨rfl, hexcess⟩

/-- Exactly a word below zero is refused for its sign. -/
theorem refused_negativeWord_iff {x : Word} :
    Refused word (.negativeWord x) ↔ x = word ∧ word < 0 := by
  constructor
  · intro h
    cases h with
    | sign hsign => exact ⟨rfl, hsign⟩
  · rintro ⟨rfl, hsign⟩
    exact .sign hsign

/-- **Decoding inverts encoding.** A word decodes to an instruction if and only if it is that
instruction's word; so different instructions have different words, and no other word decodes. Every
other word is refused as the rule says, for its sign if and only if it has one, and for digits in
excess only if there are digits above the third mode. -/
theorem decode_inverts_encode (word : Word) :
    (∀ i, decode word = .ok i ↔ word = i.encode) ∧
      Function.Injective encode ∧
      (∀ e, decode word = .error e ↔ Refused word e) ∧
      (∀ x, decode word = .error (.negativeWord x) ↔ x = word ∧ word < 0) ∧
      ∀ x, word < 100000 → decode word ≠ .error (.excessModeDigits x) := by
  refine ⟨fun i => decode_eq_ok_iff, fun i j h => ?_, fun e => decode_eq_error_iff, fun x => ?_,
    fun x hlt h => ?_⟩
  · have hj := decode_encode j
    rw [← h, decode_encode] at hj
    exact Except.ok.inj hj
  · exact decode_eq_error_iff.trans refused_negativeWord_iff
  · obtain ⟨-, hle⟩ := (decode_eq_error_iff.mp h).le_of_excessModeDigits
    exact absurd hlt (Int.not_lt.mpr hle)

/-- A word with three different modes, the same word above 64 bits, a word with two invalid modes, and
the last word without digits in excess. -/
theorem decode_inverts_encode_boundaries :
    decode 21002 = .ok ⟨.mul, .position, .immediate, .relative⟩ ∧
      decode (2 ^ 64 + 21002) = .error (.excessModeDigits (2 ^ 64 + 21002)) ∧
      decode 45002 = .error (.invalidMode 2 5) ∧
      (99999 : Word) < 100000 ∧ decode 99999 ≠ .error (.excessModeDigits 99999) := by
  have hmode : Refused 45002 (.invalidMode 2 5) := by
    refine .mode 2 ⟨by decide, by decide⟩ ⟨.mul, rfl⟩ (by decide) (by decide) (by decide) ?_
    intro lower hone hlt
    obtain rfl : lower = 1 := by omega
    decide
  refine ⟨((decode_inverts_encode _).1 _).mpr rfl, ?_, ?_, by decide, ?_⟩
  · exact ((decode_inverts_encode _).2.2.1 _).mpr (.wide (by decide))
  · exact ((decode_inverts_encode _).2.2.1 _).mpr hmode
  · exact (decode_inverts_encode _).2.2.2.2 _ (by decide)

end Intcode.Instruction
