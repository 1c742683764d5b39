import Mathlib.Data.List.Forall2
import Intcode.Program
import Intcode.Proofs.Program.Numeral
import Intcode.Proofs.Text.Trim

/-!
# The wire format, and what is refused

The *tokens* of a text are what stands between its commas, trimmed. A text is read as a program if and
only if all its tokens are numerals, and then the program has their values; otherwise the first token
that is none is reported. The only text without a numeral that is refused for another reason is one
that is all blanks.

## Shape of the proof

A text is trimmed as a whole before it is split, but that is not seen in its tokens
(`tokens_trim`), so they alone decide what a text is read as (`parse_congr`). What is said of tokens
is proved by induction over them (`readTokens_eq_ok_iff`, `readTokens_eq_error_iff`).
-/

namespace Intcode.Program

open Text Word

/-- What stands between the commas of a text, trimmed. -/
def tokens (cs : List Char) : List (List Char) :=
  (cs.splitOn ',').map trim

/-! ## Tokens -/

theorem not_mem_comma {cs : List Char} (h : AllBlank cs) : ',' ∉ cs := by
  intro hmem
  exact absurd (h ',' hmem) (by decide)

/-- A text without commas is one token. -/
theorem tokens_of_not_mem {cs : List Char} (h : ',' ∉ cs) : tokens cs = [trim cs] := by
  have hsplit : (List.intercalate [','] [cs]).splitOn ',' = [cs] :=
    List.splitOn_intercalate ',' (by simpa using h) (by simp)
  rw [List.intercalate_singleton] at hsplit
  rw [tokens, hsplit, List.map_singleton]

/-- A comma separates the tokens in front of it from those behind. -/
theorem tokens_append_comma (cs ds : List Char) :
    tokens (cs ++ ',' :: ds) = tokens cs ++ tokens ds := by
  rw [tokens, List.splitOn_eq_splitOnP, List.splitOnP_append_cons _ _ (by simp), List.map_append]
  rfl

/-- Blanks in front of a text are not seen in its tokens. -/
theorem tokens_append_left {left : List Char} (h : AllBlank left) (cs : List Char) :
    tokens (left ++ cs) = tokens cs := by
  by_cases hcomma : ',' ∈ cs
  · -- they belong to the first token
    obtain ⟨first, rest, rfl, hfirst⟩ := List.eq_append_cons_of_mem hcomma
    have hnone : ',' ∉ left ++ first := by
      rw [List.mem_append]
      exact fun hmem => hmem.elim (not_mem_comma h) hfirst
    rw [← List.append_assoc, tokens_append_comma, tokens_append_comma, tokens_of_not_mem hnone,
      tokens_of_not_mem hfirst, trim_append_left h]
  · have hnone : ',' ∉ left ++ cs := by
      rw [List.mem_append]
      exact fun hmem => hmem.elim (not_mem_comma h) hcomma
    rw [tokens_of_not_mem hnone, tokens_of_not_mem hcomma, trim_append_left h]

/-- Nor are blanks behind it. -/
theorem tokens_append_right (cs : List Char) {right : List Char} (h : AllBlank right) :
    tokens (cs ++ right) = tokens cs := by
  -- token by token, since the blanks belong to the last
  induction hlength : cs.length using Nat.strong_induction_on generalizing cs with
  | _ length ih =>
    by_cases hcomma : ',' ∈ cs
    · obtain ⟨first, rest, rfl⟩ := List.append_of_mem hcomma
      have hrest : tokens (rest ++ right) = tokens rest := by
        refine ih rest.length ?_ rest rfl
        rw [← hlength, List.length_append, List.length_cons]
        omega
      rw [List.append_assoc, List.cons_append, tokens_append_comma, tokens_append_comma, hrest]
    · have hnone : ',' ∉ cs ++ right := by
        rw [List.mem_append]
        exact fun hmem => hmem.elim hcomma (not_mem_comma h)
      rw [tokens_of_not_mem hnone, tokens_of_not_mem hcomma, trim_append_right cs h]

/-- Trimming a text as a whole is not seen in its tokens. -/
theorem tokens_trim (cs : List Char) : tokens (trim cs) = tokens cs := by
  obtain ⟨left, right, hcs, hleft, hright⟩ := exists_eq_append_trim cs
  have htokens : tokens cs = tokens (left ++ trim cs ++ right) := congrArg tokens hcs
  rw [htokens, tokens_append_right _ hright, tokens_append_left hleft]

/-- Every text has a token. -/
theorem tokens_ne_nil (cs : List Char) : tokens cs ≠ [] := by
  rw [tokens, ne_eq, List.map_eq_nil_iff]
  exact List.splitOnP_ne_nil _ _

/-- A trimmed text that is empty is the one that has a single token and that an empty one. -/
theorem trim_eq_nil_iff_tokens {cs : List Char} : trim cs = [] ↔ tokens cs = [[]] := by
  constructor
  · intro h
    rw [← tokens_trim, h]
    rfl
  · intro h
    rw [← tokens_trim] at h
    by_cases hcomma : ',' ∈ trim cs
    · obtain ⟨first, rest, hcs⟩ := List.append_of_mem hcomma
      have hlength := congrArg List.length h
      rw [hcs, tokens_append_comma, List.length_append] at hlength
      have hfirst := List.length_pos_iff.mpr (tokens_ne_nil first)
      have hrest := List.length_pos_iff.mpr (tokens_ne_nil rest)
      simp only [List.length_singleton] at hlength
      omega
    · rw [tokens_of_not_mem hcomma, trim_trim] at h
      exact List.head_eq_of_cons_eq h

/-! ## Reading tokens -/

/-- Tokens are read if all are numerals, and then as their values. -/
theorem readTokens_eq_ok_iff {index : Nat} {pieces : List (List Char)} {words : List Word} :
    readTokens index pieces = .ok words ↔ List.Forall₂ Denotes (pieces.map trim) words := by
  induction pieces generalizing index words with
  | nil =>
    rw [readTokens, List.map_nil, List.forall₂_nil_left_iff]
    constructor
    · intro h
      cases h
      rfl
    · rintro rfl
      rfl
  | cons piece pieces ih =>
    rw [readTokens, List.map_cons, List.forall₂_cons_left_iff]
    rcases hread : ofChars? (trim piece) with _ | word
    · have hnone := ofChars?_eq_none_iff.mp hread
      constructor
      · intro h
        cases h
      · rintro ⟨word, rest, hword, -, -⟩
        exact absurd ⟨word, hword⟩ hnone
    · have hword := ofChars?_eq_some_iff.mp hread
      constructor
      · intro h
        rcases hrest : readTokens (index + 1) pieces with error | rest
        · rw [hrest] at h
          cases h
        · rw [hrest] at h
          cases h
          exact ⟨word, rest, hword, ih.mp hrest, rfl⟩
      · rintro ⟨word', rest, hword', hrest, rfl⟩
        obtain rfl : word = word' :=
          Option.some.inj (hread.symm.trans (ofChars?_eq_some_iff.mpr hword'))
        rw [ih.mpr hrest]
        rfl

/-- Tokens are refused if one is no numeral, and the first such token is reported. -/
theorem readTokens_eq_error_iff {index : Nat} {pieces : List (List Char)} {error : LoadError} :
    readTokens index pieces = .error error ↔
      ∃ before bad after, pieces.map trim = before ++ bad :: after ∧
        (∀ token ∈ before, IsNumeral token) ∧ ¬ IsNumeral bad ∧
        error = .invalidToken (index + before.length) (String.ofList bad) := by
  induction pieces generalizing index error with
  | nil =>
    constructor
    · intro h
      cases h
    · rintro ⟨before, bad, after, h, -⟩
      exact absurd h.symm (by simp)
  | cons piece pieces ih =>
    rw [readTokens, List.map_cons]
    rcases hread : ofChars? (trim piece) with _ | word
    · have hbad := ofChars?_eq_none_iff.mp hread
      constructor
      · intro h
        cases h
        exact ⟨[], trim piece, pieces.map trim, rfl, by simp, hbad, rfl⟩
      · rintro ⟨before, bad, after, htokens, hbefore, hbad', rfl⟩
        rcases before with _ | ⟨first, before⟩
        · injection htokens with hfirst
          rw [hfirst]
          rfl
        · injection htokens with hfirst
          rw [hfirst] at hbad
          exact absurd (hbefore first List.mem_cons_self) hbad
    · have hword : IsNumeral (trim piece) := ⟨word, ofChars?_eq_some_iff.mp hread⟩
      constructor
      · intro h
        rcases hrest : readTokens (index + 1) pieces with error' | rest
        · rw [hrest] at h
          cases h
          obtain ⟨before, bad, after, htokens, hbefore, hbad, rfl⟩ := ih.mp hrest
          refine ⟨trim piece :: before, bad, after, by rw [htokens]; rfl, ?_, hbad, ?_⟩
          · exact List.forall_mem_cons.mpr ⟨hword, hbefore⟩
          · rw [List.length_cons, Nat.add_assoc, Nat.add_comm 1]
        · rw [hrest] at h
          cases h
      · rintro ⟨before, bad, after, htokens, hbefore, hbad, rfl⟩
        rcases before with _ | ⟨first, before⟩
        · injection htokens with hfirst
          rw [hfirst] at hword
          exact absurd hword hbad
        · injection htokens with hfirst hrest
          have hplace : index + (first :: before).length = index + 1 + before.length := by
            rw [List.length_cons]
            omega
          have hread' : readTokens (index + 1) pieces = .error _ := ih.mpr ⟨before, bad, after, hrest,
            fun token htoken => hbefore token (List.mem_cons_of_mem _ htoken), hbad, rfl⟩
          rw [hread', hplace]
          rfl

/-! ## Reading texts -/

theorem parse_of_trim_eq_nil {text : String} (h : trim text.toList = []) :
    parse text = .error .empty := by
  rw [parse, h]

theorem parse_of_trim_ne_nil {text : String} (h : trim text.toList ≠ []) :
    parse text = (readTokens 0 ((trim text.toList).splitOn ',')).map Program.mk := by
  rw [parse]
  split
  · next hnil => exact absurd hnil h
  · rfl

/-- A text is refused as empty if and only if nothing is left when it is trimmed. -/
theorem parse_eq_empty_iff {text : String} :
    parse text = .error .empty ↔ trim text.toList = [] := by
  refine ⟨fun h => ?_, parse_of_trim_eq_nil⟩
  by_contra hne
  rw [parse_of_trim_ne_nil hne] at h
  rcases hread : readTokens 0 ((trim text.toList).splitOn ',') with error | words
  · obtain ⟨before, bad, after, -, -, -, rfl⟩ := readTokens_eq_error_iff.mp hread
    rw [hread] at h
    cases h
  · rw [hread] at h
    cases h

/-- A text is read if and only if it is not all blanks and its tokens are numerals. -/
theorem parse_eq_ok_iff {text : String} {program : Program} :
    parse text = .ok program ↔
      trim text.toList ≠ [] ∧ List.Forall₂ Denotes (tokens text.toList) program.words := by
  by_cases hnil : trim text.toList = []
  · rw [parse_of_trim_eq_nil hnil]
    constructor
    · intro h
      cases h
    · rintro ⟨hne, -⟩
      exact absurd hnil hne
  · rw [parse_of_trim_ne_nil hnil, ← tokens_trim]
    constructor
    · intro h
      rcases hread : readTokens 0 ((trim text.toList).splitOn ',') with error | words
      · rw [hread] at h
        cases h
      · rw [hread] at h
        cases h
        exact ⟨hnil, readTokens_eq_ok_iff.mp hread⟩
    · rintro ⟨-, hwords⟩
      rw [readTokens_eq_ok_iff.mpr hwords]
      rfl

/-- A token is reported if and only if the text is not all blanks and it is the first that is no
numeral. -/
theorem parse_eq_invalidToken_iff {text : String} {index : Nat} {token : String} :
    parse text = .error (.invalidToken index token) ↔
      trim text.toList ≠ [] ∧ ∃ before bad after, tokens text.toList = before ++ bad :: after ∧
        (∀ token ∈ before, IsNumeral token) ∧ ¬ IsNumeral bad ∧
        index = before.length ∧ token = String.ofList bad := by
  by_cases hnil : trim text.toList = []
  · rw [parse_of_trim_eq_nil hnil]
    constructor
    · intro h
      cases h
    · rintro ⟨hne, -⟩
      exact absurd hnil hne
  · rw [parse_of_trim_ne_nil hnil, ← tokens_trim]
    constructor
    · intro h
      rcases hread : readTokens 0 ((trim text.toList).splitOn ',') with error | words
      · obtain ⟨before, bad, after, htokens, hbefore, hbad, rfl⟩ := readTokens_eq_error_iff.mp hread
        rw [hread] at h
        cases h
        exact ⟨hnil, before, bad, after, htokens, hbefore, hbad, Nat.zero_add _, rfl⟩
      · rw [hread] at h
        cases h
    · rintro ⟨-, before, bad, after, htokens, hbefore, hbad, rfl, rfl⟩
      have hread : readTokens 0 ((trim text.toList).splitOn ',') = .error _ :=
        readTokens_eq_error_iff.mpr ⟨before, bad, after, htokens, hbefore, hbad, rfl⟩
      rw [hread, Nat.zero_add]
      rfl

/-- The tokens alone decide what a text is read as. -/
theorem parse_congr {text₁ text₂ : String} (h : tokens text₁.toList = tokens text₂.toList) :
    parse text₁ = parse text₂ := by
  have hnil : trim text₁.toList = [] ↔ trim text₂.toList = [] := by
    rw [trim_eq_nil_iff_tokens, trim_eq_nil_iff_tokens, h]
  rcases hparse : parse text₂ with (_ | ⟨index, token⟩) | program
  · exact parse_eq_empty_iff.mpr (hnil.mpr (parse_eq_empty_iff.mp hparse))
  · have hreported := parse_eq_invalidToken_iff.mp hparse
    rw [← h] at hreported
    exact parse_eq_invalidToken_iff.mpr ⟨fun hn => hreported.1 (hnil.mp hn), hreported.2⟩
  · have hread := parse_eq_ok_iff.mp hparse
    rw [← h] at hread
    exact parse_eq_ok_iff.mpr ⟨fun hn => hread.1 (hnil.mp hn), hread.2⟩

/-- A text with more than one comma in a row, or one at an end, has an empty token. -/
theorem nil_mem_tokens {blanks : List Char} (front back : List Char) (h : AllBlank blanks) :
    [] ∈ tokens (blanks ++ ',' :: back) ∧ [] ∈ tokens (front ++ ',' :: blanks) ∧
      [] ∈ tokens (front ++ ',' :: (blanks ++ ',' :: back)) := by
  have hempty : [] ∈ tokens blanks := by
    rw [tokens_of_not_mem (not_mem_comma h), trim_of_allBlank h]
    exact List.mem_singleton_self []
  refine ⟨?_, ?_, ?_⟩
  · rw [tokens_append_comma]
    exact List.mem_append_left _ hempty
  · rw [tokens_append_comma]
    exact List.mem_append_right _ hempty
  · rw [tokens_append_comma, tokens_append_comma]
    exact List.mem_append_right _ (List.mem_append_left _ hempty)

/-- A text with an empty token is no program. -/
theorem parse_ne_ok_of_nil_mem_tokens {text : String} (h : [] ∈ tokens text.toList)
    (program : Program) : parse text ≠ .ok program := by
  intro hparse
  obtain ⟨-, hwords⟩ := parse_eq_ok_iff.mp hparse
  obtain ⟨i, hi, htoken⟩ := List.mem_iff_getElem.mp h
  have hdenotes := List.Forall₂.get hwords hi (hwords.length_eq ▸ hi)
  rw [List.get_eq_getElem, htoken] at hdenotes
  exact not_isNumeral_nil ⟨_, hdenotes⟩

/-- **Exactly the wire format is read.** A text that is all blanks is refused as empty, and no other
is. Any other text is read if and only if each of its tokens, between the commas and trimmed, is a
numeral, and then as the program with their values in order; otherwise the first token that is no
numeral is reported, with its place. So a text is no program if it has a comma at an end or two with
nothing but blanks between them; and texts that differ only in blanks around their tokens are read as
the same program, or refused for the same reason. -/
theorem parse_reads_wire_format (text : String) :
    (parse text = .error .empty ↔ trim text.toList = []) ∧
    (∀ program, parse text = .ok program ↔
      trim text.toList ≠ [] ∧ List.Forall₂ Denotes (tokens text.toList) program.words) ∧
    (∀ index token, parse text = .error (.invalidToken index token) ↔
      trim text.toList ≠ [] ∧ ∃ before bad after, tokens text.toList = before ++ bad :: after ∧
        (∀ token ∈ before, IsNumeral token) ∧ ¬ IsNumeral bad ∧
        index = before.length ∧ token = String.ofList bad) ∧
    (∀ front blanks back, AllBlank blanks →
      text.toList = blanks ++ ',' :: back ∨ text.toList = front ++ ',' :: blanks ∨
        text.toList = front ++ ',' :: (blanks ++ ',' :: back) →
      ∀ program, parse text ≠ .ok program) ∧
    ∀ other : String,
      (other.toList.splitOn ',').map trim = (text.toList.splitOn ',').map trim →
      parse other = parse text := by
  refine ⟨parse_eq_empty_iff, fun program => parse_eq_ok_iff,
    fun index token => parse_eq_invalidToken_iff, ?_, fun other => parse_congr⟩
  intro front blanks back hblanks htext
  obtain ⟨hleading, htrailing, hdoubled⟩ := nil_mem_tokens front back hblanks
  apply parse_ne_ok_of_nil_mem_tokens
  rcases htext with htext | htext | htext
  · rwa [htext]
  · rwa [htext]
  · rwa [htext]

/-- Signs, underscores, leading zeros and blanks that are not spaces; the same without the blanks; and
two texts with a comma too many, one of which has a token that is no numeral before it. -/
theorem parse_reads_wire_format_grouped :
    let text := "\t+1_0 ,\u00a0-0_07_\n"
    parse text = .ok ⟨[10, -7]⟩ ∧ parse "+1_0,-0_07_" = parse text ∧
      (∀ program, parse "1, ,2" ≠ .ok program) ∧
      parse "1,-+2,,3" = .error (.invalidToken 1 "-+2") := by
  intro text
  obtain ⟨-, hread, -, -, hblanks⟩ := parse_reads_wire_format text
  obtain ⟨-, -, -, hcommas, -⟩ := parse_reads_wire_format "1, ,2"
  obtain ⟨-, -, hreported, -, -⟩ := parse_reads_wire_format "1,-+2,,3"
  have htokens : tokens text.toList = ["+1_0".toList, "-0_07_".toList] := by decide +kernel
  have hwords : List.Forall₂ Denotes ["+1_0".toList, "-0_07_".toList] [10, -7] :=
    .cons (ofChars?_eq_some_iff.mp (by decide +kernel))
      (.cons (ofChars?_eq_some_iff.mp (by decide +kernel)) .nil)
  have hbad : ¬ IsNumeral "-+2".toList := ofChars?_eq_none_iff.mp (by decide +kernel)
  have hfirst : IsNumeral "1".toList := ⟨1, ofChars?_eq_some_iff.mp (by decide +kernel)⟩
  refine ⟨(hread ⟨[10, -7]⟩).mpr ⟨by decide +kernel, ?_⟩, hblanks _ (by decide +kernel), ?_, ?_⟩
  · rwa [htokens]
  · exact hcommas ['1'] [' '] ['2'] (by simp [AllBlank, isBlank]) (Or.inr (Or.inr (by decide +kernel)))
  · refine (hreported 1 "-+2").mpr ⟨by decide +kernel, ["1".toList], "-+2".toList,
      ["".toList, "3".toList], by decide +kernel, ?_, hbad, rfl, by decide +kernel⟩
    exact fun token htoken => List.mem_singleton.mp htoken ▸ hfirst

end Intcode.Program
