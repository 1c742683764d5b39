import Mathlib.Data.Nat.Digits.Defs
import Intcode.Word

/-!
# Numerals

The grammar of a numeral, apart from how it is read: at most one sign, a digit, and then digits and
underscores. Its value is that of its digits in base ten, as if the underscores were not there, with
its sign. `Word.ofChars?` reads exactly the numerals, and each as its value (`ofChars?_eq_some_iff`).
-/

namespace Intcode.Word

/-- What may stand behind the first digit of a numeral. -/
def IsFiller (c : Char) : Prop :=
  c.isDigit = true ∨ c = '_'

/-- A digit, and behind it digits and underscores. -/
structure IsMagnitude (cs : List Char) : Prop where
  head : ∃ c ∈ cs.head?, c.isDigit = true
  filler : ∀ c ∈ cs, IsFiller c

/-- The digits of a numeral as numbers, underscores dropped. -/
def digits (cs : List Char) : List Nat :=
  (cs.filter (· ≠ '_')).map fun c => c.toNat - '0'.toNat

/-- What the digits of a numeral are worth in base ten. -/
def decimal (cs : List Char) : Nat :=
  Nat.ofDigits 10 (digits cs).reverse

/-- A numeral and its value: at most one sign stands in front of a magnitude. -/
inductive Denotes : List Char → Word → Prop
  | unsigned {cs : List Char} : IsMagnitude cs → Denotes cs (decimal cs)
  | plus {cs : List Char} : IsMagnitude cs → Denotes ('+' :: cs) (decimal cs)
  | minus {cs : List Char} : IsMagnitude cs → Denotes ('-' :: cs) (-(decimal cs : Word))

/-- A text that is a numeral. -/
def IsNumeral (cs : List Char) : Prop :=
  ∃ word, Denotes cs word

/-! ## Values -/

theorem digits_cons_of_isDigit {c : Char} (h : c.isDigit = true) (cs : List Char) :
    digits (c :: cs) = (c.toNat - '0'.toNat) :: digits cs := by
  have hne : c ≠ '_' := by
    rintro rfl
    exact absurd h (by decide)
  rw [digits, List.filter_cons_of_pos (by simpa using hne)]
  rfl

theorem digits_cons_underscore (cs : List Char) : digits ('_' :: cs) = digits cs := by
  rw [digits, List.filter_cons_of_neg (by simp)]
  rfl

/-- A digit in front is worth the power of ten for the digits behind it. -/
theorem ofDigits_reverse_cons (d : Nat) (ds : List Nat) :
    Nat.ofDigits 10 (d :: ds).reverse = d * 10 ^ ds.length + Nat.ofDigits 10 ds.reverse := by
  rw [List.reverse_cons, Nat.ofDigits_append, Nat.ofDigits_singleton, List.length_reverse]
  ring

/-- Reading on from a value shifts it by as many places as digits follow. -/
theorem digitsFrom_of_filler {cs : List Char} (h : ∀ c ∈ cs, IsFiller c) (value : Nat) :
    digitsFrom value cs = some (value * 10 ^ (digits cs).length + decimal cs) := by
  induction cs generalizing value with
  | nil => simp [digitsFrom, decimal, digits]
  | cons c cs ih =>
    have hrest : ∀ d ∈ cs, IsFiller d := fun d hd => h d (List.mem_cons_of_mem _ hd)
    rcases h c List.mem_cons_self with hdigit | rfl
    · have hdigits := digits_cons_of_isDigit hdigit cs
      rw [digitsFrom, if_pos hdigit, ih hrest, decimal, decimal, hdigits, ofDigits_reverse_cons,
        List.length_cons, pow_succ]
      congr 1
      ring
    · rw [digitsFrom, if_neg (by decide), if_pos rfl, ih hrest, decimal, decimal,
        digits_cons_underscore]

/-- Nothing but digits and underscores is read. -/
theorem filler_of_digitsFrom {cs : List Char} {value n : Nat} (h : digitsFrom value cs = some n) :
    ∀ c ∈ cs, IsFiller c := by
  induction cs generalizing value with
  | nil => exact fun c hc => absurd hc List.not_mem_nil
  | cons c cs ih =>
    intro d hd
    rw [digitsFrom] at h
    split at h
    · next hdigit =>
      rcases List.mem_cons.mp hd with rfl | hd
      · exact Or.inl hdigit
      · exact ih h d hd
    · split at h
      · next hunderscore =>
        rcases List.mem_cons.mp hd with rfl | hd
        · exact Or.inr hunderscore
        · exact ih h d hd
      · cases h

/-! ## Reading -/

/-- The magnitudes are what is read as one, and their decimal value is what they are read as. -/
theorem magnitude?_eq_some_iff {cs : List Char} {n : Nat} :
    magnitude? cs = some n ↔ IsMagnitude cs ∧ n = decimal cs := by
  rcases cs with _ | ⟨c, cs⟩
  · constructor
    · intro h
      cases h
    · rintro ⟨⟨⟨c, hc, -⟩, -⟩, -⟩
      cases hc
  · constructor
    · intro h
      rw [magnitude?] at h
      split at h
      · next hdigit =>
        have hfiller := filler_of_digitsFrom h
        rw [digitsFrom_of_filler hfiller, Nat.zero_mul, Nat.zero_add] at h
        exact ⟨⟨⟨c, rfl, hdigit⟩, hfiller⟩, (Option.some.inj h).symm⟩
      · cases h
    · rintro ⟨⟨⟨d, hd, hdigit⟩, hfiller⟩, rfl⟩
      obtain rfl : c = d := Option.some.inj hd
      rw [magnitude?, if_pos hdigit, digitsFrom_of_filler hfiller, Nat.zero_mul, Nat.zero_add]

/-- So are they as words. -/
theorem magnitude?_eq_some_iff_word {cs : List Char} {word : Word} :
    (do return ((← magnitude? cs) : Word)) = some word ↔ IsMagnitude cs ∧ word = decimal cs := by
  rcases hread : magnitude? cs with _ | n
  · have hnone : ¬ IsMagnitude cs := by
      intro hmagnitude
      rw [magnitude?_eq_some_iff.mpr ⟨hmagnitude, rfl⟩] at hread
      cases hread
    constructor
    · intro h
      cases h
    · rintro ⟨hmagnitude, -⟩
      exact absurd hmagnitude hnone
  · obtain ⟨hmagnitude, rfl⟩ := magnitude?_eq_some_iff.mp hread
    constructor
    · intro h
      exact ⟨hmagnitude, (Option.some.inj h).symm⟩
    · rintro ⟨-, rfl⟩
      rfl

/-- A magnitude has no sign in front. -/
theorem IsMagnitude.ne_sign {c : Char} {cs : List Char} (h : IsMagnitude (c :: cs)) :
    c ≠ '-' ∧ c ≠ '+' := by
  obtain ⟨d, hd, hdigit⟩ := h.head
  obtain rfl : c = d := Option.some.inj hd
  constructor
  · rintro rfl
    exact absurd hdigit (by decide)
  · rintro rfl
    exact absurd hdigit (by decide)

/-- What is read is a numeral. -/
theorem denotes_of_ofChars? {cs : List Char} {word : Word} (h : ofChars? cs = some word) :
    Denotes cs word := by
  rw [ofChars?.eq_def] at h
  split at h
  · obtain ⟨n, hn, rfl⟩ := Option.map_eq_some_iff.mp h
    obtain ⟨hmagnitude, rfl⟩ := magnitude?_eq_some_iff_word.mp hn
    exact .minus hmagnitude
  · obtain ⟨n, hn, rfl⟩ := Option.map_eq_some_iff.mp h
    obtain ⟨hmagnitude, rfl⟩ := magnitude?_eq_some_iff_word.mp hn
    exact .plus hmagnitude
  · obtain ⟨n, hn, rfl⟩ := Option.map_eq_some_iff.mp h
    obtain ⟨hmagnitude, rfl⟩ := magnitude?_eq_some_iff_word.mp hn
    exact .unsigned hmagnitude

/-- A numeral is read, as its value. -/
theorem ofChars?_of_denotes {cs : List Char} {word : Word} (h : Denotes cs word) :
    ofChars? cs = some word := by
  cases h with
  | plus hmagnitude =>
    rw [ofChars?, magnitude?_eq_some_iff_word.mpr ⟨hmagnitude, rfl⟩, Option.map_some]
  | minus hmagnitude =>
    rw [ofChars?, magnitude?_eq_some_iff_word.mpr ⟨hmagnitude, rfl⟩, Option.map_some]
  | unsigned hmagnitude =>
    have hread := magnitude?_eq_some_iff_word.mpr ⟨hmagnitude, rfl⟩
    rw [ofChars?.eq_def]
    split
    · exact absurd rfl hmagnitude.ne_sign.1
    · exact absurd rfl hmagnitude.ne_sign.2
    · rw [hread, Option.map_some]

/-- Exactly the numerals are read, and each as its value. -/
theorem ofChars?_eq_some_iff {cs : List Char} {word : Word} :
    ofChars? cs = some word ↔ Denotes cs word :=
  ⟨denotes_of_ofChars?, ofChars?_of_denotes⟩

/-- What is no numeral is refused. -/
theorem ofChars?_eq_none_iff {cs : List Char} : ofChars? cs = none ↔ ¬ IsNumeral cs := by
  rw [Option.eq_none_iff_forall_ne_some, IsNumeral, not_exists]
  exact forall_congr' fun word => not_congr ofChars?_eq_some_iff

/-- Nothing at all is no numeral. -/
theorem not_isNumeral_nil : ¬ IsNumeral [] :=
  ofChars?_eq_none_iff.mp rfl

end Intcode.Word
