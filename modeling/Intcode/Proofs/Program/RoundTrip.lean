import Intcode.Proofs.Program.WireFormat

/-!
# Writing and reading

`Word.text` and `Program.text` write one numeral and one text out of the many that are read alike.
Both are undone by reading: the numeral of a word denotes it (`denotes_text`), and the text of a program
has the numerals of its words as its tokens (`tokens_text`), because no numeral has a comma or a blank
in it. Only a program without words is not read again, as its text is empty.

So what is written for the program that a text is read as is a canonical form of the text, the same for
all texts that are read alike and different for any others (`text_round_trips`).
-/

namespace Intcode

/-! ## Numerals -/

namespace Word

/-- Digits are read as the number that they stand for. -/
theorem digitsFrom_of_isDigit {cs : List Char} (h : ∀ c ∈ cs, c.isDigit = true) (value : Nat) :
    digitsFrom value cs = some (Nat.ofDigitChars 10 cs value) := by
  induction cs generalizing value with
  | nil => rfl
  | cons c cs ih =>
    have hrest : ∀ d ∈ cs, d.isDigit = true := fun d hd => h d (List.mem_cons_of_mem _ hd)
    rw [digitsFrom, if_pos (h c List.mem_cons_self), ih hrest, Nat.ofDigitChars_cons]

/-- The digits of a number are read as the number. -/
theorem magnitude?_toDigits (n : Nat) : magnitude? (Nat.toDigits 10 n) = some n := by
  have hdigit : ∀ c ∈ Nat.toDigits 10 n, c.isDigit = true :=
    fun c hc => Nat.isDigit_of_mem_toDigits (by decide) (by decide) hc
  have hread := digitsFrom_of_isDigit hdigit 0
  rw [Nat.ofDigitChars_ten_toDigits] at hread
  rcases hdigits : Nat.toDigits 10 n with _ | ⟨c, cs⟩
  · exact absurd hdigits Nat.toDigits_ne_nil
  · rw [hdigits] at hdigit hread
    rw [magnitude?, if_pos (hdigit c List.mem_cons_self), hread]

/-- The numeral that is written for a word denotes it. -/
theorem denotes_text (word : Word) : Denotes (text word).toList word := by
  cases word with
  | ofNat n =>
    obtain ⟨hmagnitude, hvalue⟩ := magnitude?_eq_some_iff.mp (magnitude?_toDigits n)
    have htext : (text (Int.ofNat n)).toList = Nat.toDigits 10 n := Nat.toList_repr
    have hdenotes := Denotes.unsigned hmagnitude
    rw [← hvalue] at hdenotes
    rw [htext]
    exact hdenotes
  | negSucc n =>
    obtain ⟨hmagnitude, hvalue⟩ := magnitude?_eq_some_iff.mp (magnitude?_toDigits (n + 1))
    have htext : (text (Int.negSucc n)).toList = '-' :: Nat.toDigits 10 (n + 1) := by
      show ("-" ++ Nat.repr (n + 1)).toList = _
      rw [String.toList_append, Nat.toList_repr]
      rfl
    have hdenotes := Denotes.minus hmagnitude
    rw [← hvalue] at hdenotes
    rw [htext]
    exact hdenotes

/-- A numeral is made of digits, underscores and signs. -/
theorem Denotes.filler_or_sign {cs : List Char} {word : Word} (h : Denotes cs word) :
    ∀ c ∈ cs, IsFiller c ∨ c = '+' ∨ c = '-' := by
  intro c hc
  cases h with
  | unsigned hmagnitude => exact Or.inl (hmagnitude.filler c hc)
  | plus hmagnitude =>
    rcases List.mem_cons.mp hc with rfl | hc
    · exact Or.inr (Or.inl rfl)
    · exact Or.inl (hmagnitude.filler c hc)
  | minus hmagnitude =>
    rcases List.mem_cons.mp hc with rfl | hc
    · exact Or.inr (Or.inr rfl)
    · exact Or.inl (hmagnitude.filler c hc)

/-- A numeral has no comma in it. -/
theorem Denotes.not_mem_comma {cs : List Char} {word : Word} (h : Denotes cs word) : ',' ∉ cs := by
  intro hmem
  rcases h.filler_or_sign ',' hmem with (hdigit | hunderscore) | hplus | hminus
  · exact absurd hdigit (by decide)
  · exact absurd hunderscore (by decide)
  · exact absurd hplus (by decide)
  · exact absurd hminus (by decide)

/-- A digit is no blank. -/
theorem isBlank_of_isDigit {c : Char} (h : c.isDigit = true) : Text.isBlank c = false := by
  have hrange : 48 ≤ c.toNat ∧ c.toNat ≤ 57 := by
    simpa [Char.isDigit, UInt32.le_iff_toNat_le] using h
  simp only [Text.isBlank, Bool.or_eq_false_iff, Bool.and_eq_false_iff, beq_eq_false_iff_ne,
    decide_eq_false_iff_not]
  omega

/-- Nor has it blanks, so trimming leaves it as it is. -/
theorem Denotes.trim_eq {cs : List Char} {word : Word} (h : Denotes cs word) :
    Text.trim cs = cs := by
  have hvisible : ∀ c ∈ cs, Text.isBlank c = false := by
    intro c hc
    rcases h.filler_or_sign c hc with (hdigit | rfl) | rfl | rfl
    · exact isBlank_of_isDigit hdigit
    · decide
    · decide
    · decide
  have hfree : Text.BlankFree cs :=
    ⟨fun c hc => hvisible c (List.mem_of_mem_head? hc),
      fun c hc => hvisible c (List.mem_of_mem_getLast? hc)⟩
  exact Text.trim_eq_iff.mpr ⟨hfree, [], [], by simp, by simp [Text.AllBlank], by simp [Text.AllBlank]⟩

end Word

/-! ## Programs -/

namespace Program

open Text Word

/-- The tokens of what is written are the numerals of the words. -/
theorem tokens_text {program : Program} (h : program.words ≠ []) :
    tokens program.text.toList = program.words.map fun word => (Word.text word).toList := by
  let numerals := program.words.map fun word => (Word.text word).toList
  have htext : program.text.toList = List.intercalate [','] numerals := by
    rw [Program.text, String.toList_intercalate, List.map_map]
    rfl
  have hcomma : ∀ cs ∈ numerals, ',' ∉ cs := by
    intro cs hcs
    obtain ⟨word, -, rfl⟩ := List.mem_map.mp hcs
    exact (denotes_text word).not_mem_comma
  have hsplit : program.text.toList.splitOn ',' = numerals := by
    rw [htext]
    exact List.splitOn_intercalate ',' hcomma (by simpa [numerals] using h)
  rw [tokens, hsplit]
  -- trimming does nothing to a numeral
  refine (List.map_map ..).trans (List.map_congr_left fun word _ => ?_)
  exact (denotes_text word).trim_eq

/-- What is written for a program with words is read as that program. -/
theorem parse_text {program : Program} (h : program.words ≠ []) :
    parse program.text = .ok program := by
  have htokens := tokens_text h
  refine parse_eq_ok_iff.mpr ⟨fun hnil => ?_, ?_⟩
  · -- an empty token would be the numeral of a word
    rw [trim_eq_nil_iff_tokens.mp hnil] at htokens
    have hempty : [] ∈ program.words.map fun word => (Word.text word).toList :=
      htokens ▸ List.mem_singleton_self []
    obtain ⟨word, -, hword⟩ := List.mem_map.mp hempty
    exact not_isNumeral_nil ⟨word, hword ▸ denotes_text word⟩
  · rw [htokens, List.forall₂_map_left_iff]
    exact List.forall₂_same.mpr fun word _ => denotes_text word

/-- A program that was read has words. -/
theorem words_ne_nil_of_parse {text : String} {program : Program} (h : parse text = .ok program) :
    program.words ≠ [] := by
  obtain ⟨-, hwords⟩ := parse_eq_ok_iff.mp h
  intro hnil
  rw [hnil, List.forall₂_nil_right_iff] at hwords
  exact tokens_ne_nil _ hwords

/-- Programs with words are told apart by what is written for them. -/
theorem text_injective {program₁ program₂ : Program} (h₁ : program₁.words ≠ [])
    (h₂ : program₂.words ≠ []) (h : program₁.text = program₂.text) : program₁ = program₂ := by
  have hread := parse_text h₁
  rw [h, parse_text h₂] at hread
  exact (Except.ok.inj hread).symm

/-- The canonical form of a text: what is written for the program that it is read as. -/
def canonical (text : String) : Except LoadError String :=
  (parse text).map Program.text

/-- **Writing and reading are inverse.** What is written for a program with at least one word is read as
that program. And what is written for the program that a text is read as is a canonical form: it is
read as that program again, it is its own canonical form, and a text has it as its canonical form if
and only if the text is read as that program. -/
theorem text_round_trips :
    (∀ program : Program, program.words ≠ [] → parse program.text = .ok program) ∧
      ∀ (text : String) (program : Program), parse text = .ok program →
        canonical text = .ok program.text ∧ parse program.text = .ok program ∧
        canonical program.text = .ok program.text ∧
        ∀ other : String, canonical other = .ok program.text ↔ parse other = .ok program := by
  refine ⟨fun program => parse_text, fun text program hparse => ?_⟩
  have hwords := words_ne_nil_of_parse hparse
  have hagain := parse_text hwords
  have hcanonical {other : String} (h : parse other = .ok program) :
      canonical other = .ok program.text := by
    rw [canonical, h]
    rfl
  refine ⟨hcanonical hparse, hagain, hcanonical hagain, fun other => ⟨fun hother => ?_, hcanonical⟩⟩
  rcases hread : parse other with error | program'
  · rw [canonical, hread] at hother
    cases hother
  · rw [canonical, hread] at hother
    have htext := Except.ok.inj hother
    rw [text_injective (words_ne_nil_of_parse hread) hwords htext]

/-- A text with signs, underscores, leading zeros, blanks and a word beyond 64 bits, and its canonical
form, which a text with a word of another sign does not have. -/
theorem text_round_trips_grouped :
    let text := " +1_002 ,-0\t, -0033,\n100000000000000000000"
    let program : Program := ⟨[1002, 0, -33, 100000000000000000000]⟩
    parse text = .ok program ∧ program.words ≠ [] ∧
      parse "1002,0,-33,100000000000000000000" = .ok program ∧
      canonical text = .ok "1002,0,-33,100000000000000000000" ∧
      canonical "1002,0,33,100000000000000000000" ≠ .ok "1002,0,-33,100000000000000000000" := by
  intro text program
  have hparse : parse text = .ok program := by decide +kernel
  have hother : parse "1002,0,33,100000000000000000000" ≠ .ok program := by decide +kernel
  have hwords : program.words ≠ [] := List.cons_ne_nil _ _
  have htext : program.text = "1002,0,-33,100000000000000000000" := by decide +kernel
  obtain ⟨hwritten, hread⟩ := text_round_trips
  obtain ⟨hcanonical, -, -, honly⟩ := hread text program hparse
  rw [← htext]
  exact ⟨hparse, hwords, hwritten program hwords, hcanonical, fun h => hother ((honly _).mp h)⟩

end Program

end Intcode
