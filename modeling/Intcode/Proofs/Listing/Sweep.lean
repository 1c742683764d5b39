import Intcode.Listing
import Intcode.Proofs.Instruction.Decoding

/-!
# Listings tile programs

A listing covers a program with lines. `Listing.Sweeps` says how, as a rule on the words that are left:
an instruction with as many operands as it has parameters is a line of code, and any other word is a
line of data, which it is either because it does not decode or because words are missing behind it. The
lines of a program are the only ones that follow the rule (`sweeps_iff`).

What is said about all lines is then by induction along the rule: their spans are the addresses of the
program in order, and their words are its words.

A listing does not show the modes of parameters that an opcode does not have. Without those, too, the
words are swept alike (`Sweeps.plain`).
-/

namespace Intcode

namespace Instruction

/-- The modes of the parameters that the opcode has. -/
def used (i : Instruction) : List Mode :=
  i.modes.take i.opcode.arity

/-- The instruction with the modes of all other parameters reset. -/
def plain (i : Instruction) : Instruction where
  opcode := i.opcode
  first := i.used.getD 0 .position
  second := i.used.getD 1 .position
  third := i.used.getD 2 .position

theorem length_used (i : Instruction) : i.used.length = i.opcode.arity := by
  rcases i with ⟨op, first, second, third⟩
  cases op <;> rfl

@[simp] theorem opcode_plain (i : Instruction) : i.plain.opcode = i.opcode := rfl

@[simp] theorem used_plain (i : Instruction) : i.plain.used = i.used := by
  rcases i with ⟨op, first, second, third⟩
  cases op <;> rfl

/-- The opcode and the used modes are all that counts. -/
theorem plain_congr {i j : Instruction} (hopcode : i.opcode = j.opcode) (hused : i.used = j.used) :
    i.plain = j.plain := by
  rw [plain, plain, hopcode, hused]

end Instruction

namespace Listing

/-- The words that a line covers. -/
def Line.words : Line → List Word
  | code _ i operands => i.encode :: operands
  | data _ word => [word]

/-- The addresses that a line covers. -/
def Line.span (line : Line) : List Nat :=
  List.range' line.address line.width

/-- The line with the modes of unused parameters reset. -/
def Line.plain : Line → Line
  | code address i operands => code address i.plain operands
  | data address word => data address word

/-- These words, from an address on, are listed in these lines. -/
inductive Sweeps : Nat → List Word → List Line → Prop
  | nil (address : Nat) : Sweeps address [] []
  | code {address : Nat} {i : Instruction} {operands rest : List Word} {lines : List Line} :
      operands.length = i.opcode.arity → Sweeps (address + i.width) rest lines →
      Sweeps address (i.encode :: (operands ++ rest)) (.code address i operands :: lines)
  | data {address : Nat} {word : Word} {rest : List Word} {lines : List Line} :
      (∀ i, Instruction.decode word = .ok i → rest.length < i.opcode.arity) →
      Sweeps (address + 1) rest lines → Sweeps address (word :: rest) (.data address word :: lines)

variable {address : Nat} {words : List Word} {lines : List Line}

/-! ## The walk follows the rule -/

/-- To pass over words is to begin behind them. -/
theorem linesFrom_skip (skip address : Nat) (words : List Word) :
    linesFrom skip address words = linesFrom 0 (address + skip) (words.drop skip) := by
  induction words generalizing skip address with
  | nil => rw [List.drop_nil, linesFrom, linesFrom]
  | cons word rest ih =>
    cases skip with
    | zero => rfl
    | succ skip => rw [linesFrom, ih, List.drop_succ_cons, Nat.add_right_comm, Nat.add_assoc]

theorem linesFrom_code {i : Instruction} {operands : List Word}
    (h : operands.length = i.opcode.arity) (rest : List Word) :
    linesFrom 0 address (i.encode :: (operands ++ rest)) =
      .code address i operands :: linesFrom 0 (address + i.width) rest := by
  have htake : (operands ++ rest).take i.opcode.arity = operands := by
    rw [← h, List.take_left]
  have hdrop : (operands ++ rest).drop i.opcode.arity = rest := by
    rw [← h, List.drop_left]
  have hline : Line.ofWord address i.encode (operands ++ rest) = .code address i operands := by
    simp only [Line.ofWord, Instruction.decode_encode, htake, h, if_true]
  have hskip : (Line.code address i operands).width - 1 = i.opcode.arity := rfl
  rw [linesFrom, hline, hskip, linesFrom_skip, hdrop, Instruction.width, Nat.add_right_comm,
    Nat.add_assoc]

theorem linesFrom_data {word : Word} {rest : List Word}
    (h : ∀ i, Instruction.decode word = .ok i → rest.length < i.opcode.arity) :
    linesFrom 0 address (word :: rest) = .data address word :: linesFrom 0 (address + 1) rest := by
  have hline : Line.ofWord address word rest = .data address word := by
    rw [Line.ofWord]
    cases hdecode : Instruction.decode word with
    | error e => rfl
    | ok i =>
      have hlt := h i hdecode
      have hmissing : (rest.take i.opcode.arity).length ≠ i.opcode.arity := by
        rw [List.length_take]
        omega
      exact if_neg hmissing
  rw [linesFrom, hline]
  rfl

/-- A word begins an instruction with its operands, or is data. -/
theorem code_or_data (word : Word) (rest : List Word) :
    (∃ (i : Instruction) (operands later : List Word), operands.length = i.opcode.arity ∧
      word = i.encode ∧ rest = operands ++ later) ∨
    ∀ i, Instruction.decode word = .ok i → rest.length < i.opcode.arity := by
  by_cases h : ∃ i, Instruction.decode word = .ok i ∧ i.opcode.arity ≤ rest.length
  · obtain ⟨i, hdecode, hle⟩ := h
    refine Or.inl ⟨i, rest.take i.opcode.arity, rest.drop i.opcode.arity, ?_,
      Instruction.decode_eq_ok_iff.mp hdecode, (List.take_append_drop _ _).symm⟩
    rw [List.length_take, Nat.min_eq_left hle]
  · exact Or.inr fun i hdecode => Nat.lt_of_not_le fun hle => h ⟨i, hdecode, hle⟩

/-- The lines of a walk follow the rule. -/
theorem sweeps_linesFrom (address : Nat) (words : List Word) :
    Sweeps address words (linesFrom 0 address words) := by
  induction hlength : words.length using Nat.strong_induction_on generalizing address words with
  | _ n ih =>
    subst hlength
    cases words with
    | nil => exact .nil address
    | cons word rest =>
      rcases code_or_data word rest with ⟨i, operands, later, hoperands, rfl, rfl⟩ | hdata
      · have hshorter : later.length < (i.encode :: (operands ++ later)).length := by
          rw [List.length_cons, List.length_append]
          omega
        rw [linesFrom_code hoperands]
        exact .code hoperands (ih _ hshorter _ _ rfl)
      · rw [linesFrom_data hdata]
        exact .data hdata (ih _ (Nat.lt_succ_self _) _ _ rfl)

/-- The rule leaves no choice, so the lines are those of the walk. -/
theorem sweeps_iff : Sweeps address words lines ↔ lines = linesFrom 0 address words := by
  constructor
  · intro h
    induction h with
    | nil address => rfl
    | code hoperands _ ih => rw [linesFrom_code hoperands, ih]
    | data hdata _ ih => rw [linesFrom_data hdata, ih]
  · rintro rfl
    exact sweeps_linesFrom address words

/-! ## What the lines cover -/

/-- The lines show the words one after the other. -/
theorem Sweeps.flatMap_words (h : Sweeps address words lines) :
    lines.flatMap Line.words = words := by
  induction h with
  | nil address => rfl
  | code _ _ ih => rw [List.flatMap_cons, ih]; rfl
  | data _ _ ih => rw [List.flatMap_cons, ih]; rfl

/-- The spans of the lines follow each other without a gap. -/
theorem Sweeps.flatMap_span (h : Sweeps address words lines) :
    lines.flatMap Line.span = List.range' address words.length := by
  induction h with
  | nil address => rfl
  | @code address i operands rest lines hoperands _ ih =>
    have hlength : (i.encode :: (operands ++ rest)).length = i.width + rest.length := by
      rw [List.length_cons, List.length_append, hoperands, Instruction.width, Nat.add_right_comm]
    rw [List.flatMap_cons, ih, hlength]
    exact List.range'_append_1
  | @data address word rest lines _ _ ih =>
    rw [List.flatMap_cons, ih, List.length_cons, Nat.add_comm rest.length 1]
    exact List.range'_append_1

theorem Line.width_pos (line : Line) : 0 < line.width := by
  cases line with
  | code => exact Nat.succ_pos _
  | data => exact Nat.one_pos

/-- The addresses increase from line to line. -/
theorem Sweeps.pairwise_address (h : Sweeps address words lines) :
    (lines.map Line.address).Pairwise (· < ·) := by
  have hsublist (lines : List Line) : (lines.map Line.address).Sublist (lines.flatMap Line.span) := by
    induction lines with
    | nil => exact List.Sublist.refl _
    | cons line lines ih =>
      have hfirst : [line.address].Sublist line.span := by
        rw [List.singleton_sublist, Line.span, List.mem_range'_1]
        exact ⟨Nat.le_refl _, Nat.lt_add_of_pos_right line.width_pos⟩
      exact hfirst.append ih
  exact List.Pairwise.sublist (hsublist lines) (h.flatMap_span ▸ List.pairwise_lt_range')

/-- Where a line stands there is a word, and the line is code exactly if that word decodes and as many
words follow as its opcode has parameters. -/
theorem Sweeps.exists_word (h : Sweeps address words lines) :
    ∀ line ∈ lines, ∃ before word rest, words = before ++ word :: rest ∧
      line.address = address + before.length ∧
      ∀ i, (∃ operands, line = .code line.address i operands) ↔
        Instruction.decode word = .ok i ∧ i.opcode.arity ≤ rest.length := by
  induction h with
  | nil address => exact fun _ hmem => absurd hmem List.not_mem_nil
  | @code address i operands rest lines hoperands _ ih =>
    intro line hmem
    rcases List.mem_cons.mp hmem with rfl | hmem
    · refine ⟨[], i.encode, operands ++ rest, rfl, rfl, fun j => ?_⟩
      rw [Instruction.decode_encode, List.length_append, hoperands]
      constructor
      · rintro ⟨operands', hline⟩
        cases hline
        exact ⟨rfl, Nat.le_add_right _ _⟩
      · rintro ⟨hij, -⟩
        cases hij
        exact ⟨operands, rfl⟩
    · obtain ⟨before, word, later, rfl, haddress, hiff⟩ := ih line hmem
      refine ⟨i.encode :: (operands ++ before), word, later, ?_, ?_, hiff⟩
      · rw [List.cons_append, List.append_assoc]
      · rw [haddress, List.length_cons, List.length_append, hoperands, Instruction.width]
        omega
  | @data address word rest lines hdata _ ih =>
    intro line hmem
    rcases List.mem_cons.mp hmem with rfl | hmem
    · refine ⟨[], word, rest, rfl, rfl, fun i => ?_⟩
      constructor
      · rintro ⟨operands, hline⟩
        cases hline
      · rintro ⟨hdecode, hle⟩
        exact absurd hle (Nat.not_le_of_lt (hdata i hdecode))
    · obtain ⟨before, word', later, rfl, haddress, hiff⟩ := ih line hmem
      refine ⟨word :: before, word', later, rfl, ?_, hiff⟩
      rw [haddress, List.length_cons]
      omega

/-! ## Unused modes -/

theorem length_words_plain (line : Line) : line.plain.words.length = line.words.length := by
  cases line <;> rfl

/-- Resetting modes does not change the number of words. -/
theorem length_flatMap_plain (lines : List Line) :
    (lines.flatMap fun line => line.plain.words).length = (lines.flatMap Line.words).length := by
  rw [List.length_flatMap, List.length_flatMap]
  exact congrArg List.sum (List.map_congr_left fun line _ => length_words_plain line)

/-- Words with unused modes reset are swept as they were before. -/
theorem Sweeps.plain (h : Sweeps address words lines) :
    Sweeps address (lines.flatMap fun line => line.plain.words) (lines.map Line.plain) := by
  induction h with
  | nil address => exact .nil address
  | code hoperands _ ih => exact .code hoperands ih
  | @data address word rest lines hdata hrest ih =>
    have hlength : (lines.flatMap fun line => line.plain.words).length = rest.length := by
      rw [length_flatMap_plain, hrest.flatMap_words]
    exact .data (fun i hdecode => hlength ▸ hdata i hdecode) ih

end Listing

end Intcode
