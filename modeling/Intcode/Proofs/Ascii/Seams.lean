import Mathlib.Data.List.Induction
import Intcode.Ascii

/-!
# Text in pieces

A word that is no character stands on a line of its own, so a newline comes before it unless the text so
far is at the beginning of a line. When words are laid out in pieces, nothing is known of the pieces
before, and that newline is missing where a piece that begins with such a word meets one that ends in the
middle of a line (`render_append`). There is no other difference: pieces laid out one after the other are
the text of all words together exactly if there is no such seam (`join_render_eq_iff`).
-/

namespace Intcode.Ascii

/-! ## Beginnings and ends of lines -/

/-- Whether the first of these words stands on a line of its own. -/
def beginsWithNumber (words : List Word) : Bool :=
  words.head?.any fun word => (char? word).isNone

/-- Whether the text of these words ends in the middle of a line. -/
def endsMidLine (words : List Word) : Bool :=
  words.getLast?.any fun word => (char? word).any (· != '\n')

/-- Whether a newline has to come between these words and those. -/
def breaks (before after : List Word) : Bool :=
  endsMidLine before && beginsWithNumber after

/-- A new line begins behind this text. -/
def IsFresh (text : String) : Prop :=
  isMidLine text.toList.reverse = false

variable {word : Word} {before after words : List Word} {chunks : List (List Word)} {text : List Char}

theorem layOut_of_char {c : Char} (h : char? word = some c) (text : List Char) :
    layOut text word = c :: text := by
  rw [layOut, h]

theorem layOut_of_number (h : char? word = none) (text : List Char) :
    layOut text word = '\n' :: ((Word.text word).toList.reverse ++
      if isMidLine text then '\n' :: text else text) := by
  rw [layOut, h]

/-- Whether a text ends in the middle of a line can be told from the word that it was laid out for
last. -/
theorem isMidLine_layOut (text : List Char) (word : Word) :
    isMidLine (layOut text word) = (char? word).any (· != '\n') := by
  cases h : char? word with
  | some c => rw [layOut_of_char h]; rfl
  | none => rw [layOut_of_number h]; rfl

theorem isMidLine_foldl_layOut (words : List Word) :
    isMidLine (words.foldl layOut []) = endsMidLine words := by
  induction words using List.reverseRecOn with
  | nil => rfl
  | append_singleton words word _ =>
    rw [List.foldl_append, List.foldl_cons, List.foldl_nil, isMidLine_layOut, endsMidLine,
      List.getLast?_concat]
    rfl

theorem isMidLine_append (later earlier : List Char) :
    isMidLine (later ++ earlier) = if later = [] then isMidLine earlier else isMidLine later := by
  cases later <;> rfl

/-- What is laid out behind a text is laid out as it would be behind none, but for a newline in front of
a number. -/
theorem foldl_layOut_eq (words : List Word) (text : List Char) :
    words.foldl layOut text = words.foldl layOut [] ++
      if isMidLine text && beginsWithNumber words then '\n' :: text else text := by
  -- once a word is laid out, what is in front of it does not matter any more
  induction words generalizing text with
  | nil => simp [beginsWithNumber]
  | cons word words ih =>
    have hbegins : beginsWithNumber (word :: words) = (char? word).isNone := rfl
    rw [List.foldl_cons, List.foldl_cons, ih, ih (layOut [] word), isMidLine_layOut,
      isMidLine_layOut, hbegins]
    cases h : char? word with
    | some c =>
      rw [layOut_of_char h, layOut_of_char h]
      cases (some c).any (· != '\n') && beginsWithNumber words <;> simp
    | none =>
      have hnone : isMidLine [] = false := rfl
      rw [layOut_of_number h, layOut_of_number h, hnone]
      simp

/-! ## Two pieces -/

theorem toList_render (words : List Word) :
    (render words).toList = (words.foldl layOut []).reverse :=
  String.toList_ofList

theorem render_append (before after : List Word) :
    render (before ++ after) =
      render before ++ (if breaks before after then "\n" else "") ++ render after := by
  rw [← String.toList_inj]
  simp only [String.toList_append, toList_render]
  rw [List.foldl_append, foldl_layOut_eq after, isMidLine_foldl_layOut, ← breaks]
  cases breaks before after <;> simp

theorem render_singleton (h : char? word = none) : render [word] = Word.text word ++ "\n" := by
  rw [← String.toList_inj, toList_render, List.foldl_cons, layOut_of_number h]
  simp [isMidLine]

/-- A text is fresh if its last piece is, and a piece that is empty does not count. -/
theorem isFresh_append_render_iff (front : String) (words : List Word) :
    IsFresh (front ++ render words) ↔
      if words = [] then IsFresh front else endsMidLine words = false := by
  have hempty : words.foldl layOut [] = [] ↔ words = [] := by
    constructor
    · intro h
      cases words using List.reverseRecOn with
      | nil => rfl
      | append_singleton words word =>
        rw [List.foldl_append, List.foldl_cons, List.foldl_nil] at h
        rcases hchar : char? word with _ | c
        · rw [layOut_of_number hchar] at h
          cases h
        · rw [layOut_of_char hchar] at h
          cases h
    · rintro rfl
      rfl
  rw [IsFresh, String.toList_append, List.reverse_append, toList_render, List.reverse_reverse,
    isMidLine_append]
  simp only [hempty, isMidLine_foldl_layOut]
  split <;> rfl

/-- A number is laid out on a line of its own. -/
theorem render_of_number (h : char? word = none) (before after : List Word) :
    render (before ++ word :: after) =
      render before ++ (if endsMidLine before then "\n" else "") ++ Word.text word ++ "\n" ++
        render after := by
  have hfirst : breaks before (word :: after) = endsMidLine before := by
    rw [breaks, beginsWithNumber, List.head?_cons, Option.any_some, h]
    exact Bool.and_true _
  have hlast : breaks [word] after = false := by
    rw [breaks, endsMidLine, List.getLast?_singleton, Option.any_some, h]
    rfl
  have hrest : render (word :: after) = Word.text word ++ "\n" ++ render after := by
    rw [← List.singleton_append, render_append, hlast, render_singleton h]
    simp
  rw [render_append, hfirst, hrest]
  simp only [String.append_assoc]

/-! ## Many pieces -/

/-- Nowhere does a piece begin with a number while the pieces before it end in the middle of a line. -/
def IsSeamless (chunks : List (List Word)) : Prop :=
  ∀ earlier chunk later, chunks = earlier ++ chunk :: later → breaks earlier.flatten chunk = false

theorem isSeamless_singleton (words : List Word) : IsSeamless [words] := by
  intro earlier chunk later h
  obtain rfl : earlier = [] := by
    cases earlier with
    | nil => rfl
    | cons first earlier => simp at h
  rfl

theorem isSeamless_concat_iff (words : List Word) :
    IsSeamless (chunks ++ [words]) ↔ IsSeamless chunks ∧ breaks chunks.flatten words = false := by
  constructor
  · intro h
    refine ⟨fun earlier chunk later heq => ?_, h chunks words [] rfl⟩
    exact h earlier chunk (later ++ [words]) (by rw [heq, List.append_assoc, List.cons_append])
  · rintro ⟨hchunks, hwords⟩ earlier chunk later heq
    cases later using List.reverseRecOn with
    | nil =>
      obtain ⟨rfl, rfl⟩ := List.append_singleton_inj.mp heq
      exact hwords
    | append_singleton later last =>
      rw [← List.cons_append, ← List.append_assoc] at heq
      exact hchunks earlier chunk later (List.append_inj_left' heq rfl)

theorem join_render_concat (chunks : List (List Word)) (words : List Word) :
    String.join ((chunks ++ [words]).map render) =
      String.join (chunks.map render) ++ render words := by
  rw [List.map_append, String.join_append, List.map_singleton, String.join_cons, String.join_nil,
    String.append_empty]

theorem length_join_render_le (chunks : List (List Word)) :
    (String.join (chunks.map render)).length ≤ (render chunks.flatten).length := by
  induction chunks using List.reverseRecOn with
  | nil => exact Nat.le_refl _
  | append_singleton chunks words ih =>
    simp only [join_render_concat, List.flatten_append, List.flatten_singleton, render_append,
      String.length_append]
    omega

/-- Pieces laid out one after the other are the text of all words together exactly if there is no
seam. -/
theorem join_render_eq_iff (chunks : List (List Word)) :
    String.join (chunks.map render) = render chunks.flatten ↔ IsSeamless chunks := by
  induction chunks using List.reverseRecOn with
  | nil =>
    refine ⟨fun _ earlier chunk later h => ?_, fun _ => rfl⟩
    cases List.append_ne_nil_of_right_ne_nil earlier (List.cons_ne_nil chunk later) h.symm
  | append_singleton chunks words ih =>
    have hlength := length_join_render_le chunks
    rw [isSeamless_concat_iff, ← ih]
    simp only [join_render_concat, List.flatten_append, List.flatten_singleton, render_append]
    cases breaks chunks.flatten words with
    | false => simp [String.append_left_inj]
    | true =>
      -- a newline that is missing here is not made up for before, since pieces are never longer
      refine ⟨fun h => ?_, fun h => nomatch h.2⟩
      have hlonger := congrArg String.length h
      simp only [String.length_append, if_true] at hlonger
      have hnewline : "\n".length = 1 := rfl
      omega

/-- The pieces before end in the middle of a line exactly if their words do. -/
theorem isFresh_join_render_iff (chunks : List (List Word)) :
    IsFresh (String.join (chunks.map render)) ↔ endsMidLine chunks.flatten = false := by
  induction chunks using List.reverseRecOn with
  | nil => exact ⟨fun _ => rfl, fun _ => rfl⟩
  | append_singleton chunks words ih =>
    rw [join_render_concat, List.flatten_append, List.flatten_singleton, isFresh_append_render_iff]
    split
    · next hnone => rw [hnone, List.append_nil, ih]
    · next hsome =>
      rw [endsMidLine, endsMidLine, List.getLast?_append, List.getLast?_eq_some_getLast hsome,
        Option.some_or]

/-- In a piece, a number stands on a line of its own, unless the piece begins with it and the pieces
before end in the middle of a line. -/
theorem join_render_of_number (h : char? word = none) (earlier later : List (List Word))
    (before after : List Word) :
    ∃ front, String.join ((earlier ++ (before ++ word :: after) :: later).map render) =
        front ++ Word.text word ++ "\n" ++ (render after ++ String.join (later.map render)) ∧
      (IsFresh front ↔ ¬ (before = [] ∧ endsMidLine earlier.flatten = true)) := by
  refine ⟨String.join (earlier.map render) ++
    (render before ++ if endsMidLine before then "\n" else ""), ?_, ?_⟩
  · rw [List.map_append, String.join_append, List.map_cons, String.join_cons, render_of_number h]
    simp only [String.append_assoc]
  · cases hmid : endsMidLine before with
    | true =>
      have hsome : before ≠ [] := by
        rintro rfl
        cases hmid
      have hfresh : IsFresh (String.join (earlier.map render) ++ (render before ++ "\n")) := by
        simp [IsFresh, isMidLine]
      simp [hfresh, hsome]
    | false =>
      have hend : render before ++ (if false = true then "\n" else "") = render before :=
        String.append_empty
      rw [hend, isFresh_append_render_iff, hmid, isFresh_join_render_iff]
      cases endsMidLine earlier.flatten <;> simp

end Intcode.Ascii
