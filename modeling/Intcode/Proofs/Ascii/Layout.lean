import Mathlib.Data.List.Induction
import Intcode.Proofs.Ascii.Seams
import Intcode.Proofs.Command.Lines
import Intcode.Proofs.Listing.Layout

/-!
# Text line by line

Words fall into rows: each word that is no ASCII code, a number, with the run of codes in front of it,
and a last run. They do so in one way only (`Division.words_injective`). The text of the words is that of
the rows: a run is its characters, and the number behind it stands on a line of its own, for which a
newline comes between the two unless the run is empty or ends with one (`toList_render_words`).

So the lines of the text are the lines that the runs have by themselves, with one line for each number in
between (`textLines_text`). In particular no line is there that is blank but for those of the runs
(`count_nil_textLines_text`).

## Shape of the proof

A number knows of what is in front of it only whether that ends in the middle of a line. For a run this
is read off its last code, and behind a number it is never the case. So the rows can be laid out one by
one (`toList_render_row`), and the text of the words is put together from them by induction on the rows.
The lines follow in the same way: the number of a row ends a line, and where the run in front of it does
not, the newline that comes between the two does (`textLines_row`).
-/

namespace Intcode.Ascii

/-! ## Codes and numbers -/

/-- Whether a word is an ASCII code. -/
def IsCode (word : Int) : Prop :=
  0 ≤ word ∧ word ≤ 127

instance (word : Int) : Decidable (IsCode word) :=
  inferInstanceAs (Decidable (0 ≤ word ∧ word ≤ 127))

/-- The characters that a run of codes stands for. -/
def characters (run : List Word) : List Char :=
  run.map fun word => Char.ofNat word.toNat

section Codes

variable {word : Int}

theorem char?_of_isCode (h : IsCode word) : char? word = some (Char.ofNat word.toNat) :=
  if_pos ⟨h.1, Int.lt_add_one_of_le h.2⟩

theorem char?_of_not_isCode (h : ¬ IsCode word) : char? word = none :=
  if_neg fun hcode => h ⟨hcode.1, Int.le_of_lt_add_one hcode.2⟩

theorem toNat_ofNat_of_isCode (h : IsCode word) : (Char.ofNat word.toNat).toNat = word.toNat := by
  have hle := h.2
  have hvalid : word.toNat.isValidChar := Or.inl (by omega)
  rw [Char.ofNat, dif_pos hvalid]
  rfl

/-- A code stands for the newline only if it is the code of the newline. -/
theorem ofNat_eq_newline_iff (h : IsCode word) : Char.ofNat word.toNat = '\n' ↔ word = newline := by
  constructor
  · intro heq
    have hcode := toNat_ofNat_of_isCode h
    rw [heq] at hcode
    have hnewline : '\n'.toNat = 10 := rfl
    have hnonneg := h.1
    show word = (10 : Int)
    omega
  · rintro rfl
    rfl

end Codes

theorem characters_concat (run : List Word) (word : Word) :
    characters (run ++ [word]) = characters run ++ [Char.ofNat word.toNat] :=
  List.map_append

/-! ## Rows -/

/-- A number with the run of codes in front of it. -/
@[ext] structure Row where
  run : List Word
  number : Word
  isCode_of_mem : ∀ word ∈ run, IsCode word
  not_isCode : ¬ IsCode number

/-- Rows and a last run. -/
@[ext] structure Division where
  rows : List Row
  last : List Word
  isCode_of_mem_last : ∀ word ∈ last, IsCode word

namespace Row

def words (row : Row) : List Word :=
  row.run ++ [row.number]

/-- The text of a row. A newline comes between the run and the number unless the run is empty or ends
with one. -/
def text (row : Row) : List Char :=
  characters row.run ++
    (if row.run = [] ∨ row.run.getLast? = some newline then [] else ['\n']) ++
      (Word.text row.number).toList ++ ['\n']

/-- A run is what comes before the first number. -/
theorem takeWhile_isCode (row : Row) (rest : List Word) :
    (row.words ++ rest).takeWhile (fun word => decide (IsCode word)) = row.run := by
  have hrun : ∀ word ∈ row.run, decide (IsCode word) = true := fun word hmem =>
    decide_eq_true (row.isCode_of_mem word hmem)
  rw [words, List.append_assoc, List.takeWhile_append_of_pos hrun, List.singleton_append,
    List.takeWhile_cons_of_neg (by simpa using row.not_isCode), List.append_nil]

theorem eq_of_words_append_eq {row row' : Row} {rest rest' : List Word}
    (h : row.words ++ rest = row'.words ++ rest') : row = row' ∧ rest = rest' := by
  have hrun : row.run = row'.run := by
    rw [← row.takeWhile_isCode rest, h, row'.takeWhile_isCode]
  rw [words, words, hrun, List.append_assoc, List.append_assoc] at h
  obtain ⟨hnumber, hrest⟩ := List.cons.inj (List.append_cancel_left h)
  exact ⟨Row.ext hrun hnumber, hrest⟩

/-- A row does not begin a run. -/
theorem words_append_ne {row : Row} {rest run : List Word} (hrun : ∀ word ∈ run, IsCode word) :
    row.words ++ rest ≠ run := by
  rintro rfl
  exact row.not_isCode (hrun row.number (by simp [words]))

end Row

namespace Division

def words (d : Division) : List Word :=
  d.rows.flatMap Row.words ++ d.last

/-- The text of the rows, and of the last run behind them. -/
def text (d : Division) : List Char :=
  d.rows.flatMap Row.text ++ characters d.last

/-- All words can be divided. -/
theorem exists_words_eq (words : List Word) : ∃ d : Division, d.words = words := by
  induction words with
  | nil => exact ⟨⟨[], [], nofun⟩, rfl⟩
  | cons word words ih =>
    obtain ⟨⟨rows, last, hlast⟩, rfl⟩ := ih
    by_cases hword : IsCode word
    · -- a code joins the run that comes next
      cases rows with
      | nil => exact ⟨⟨[], word :: last, List.forall_mem_cons.mpr ⟨hword, hlast⟩⟩, rfl⟩
      | cons row rows =>
        have hrun := List.forall_mem_cons.mpr ⟨hword, row.isCode_of_mem⟩
        exact ⟨⟨⟨word :: row.run, row.number, hrun, row.not_isCode⟩ :: rows, last, hlast⟩, rfl⟩
    · exact ⟨⟨⟨[], word, nofun, hword⟩ :: rows, last, hlast⟩, rfl⟩

/-- Words can be divided in one way only. -/
theorem words_injective {d d' : Division} (h : d.words = d'.words) : d = d' := by
  obtain ⟨rows, last, hlast⟩ := d
  obtain ⟨rows', last', hlast'⟩ := d'
  induction rows generalizing rows' with
  | nil =>
    cases rows' with
    | nil => exact Division.ext rfl h
    | cons row' rows' =>
      rw [words, words, List.flatMap_cons, List.append_assoc] at h
      exact absurd h.symm (Row.words_append_ne hlast)
  | cons row rows ih =>
    rw [words, words, List.flatMap_cons, List.append_assoc] at h
    cases rows' with
    | nil => exact absurd h (Row.words_append_ne hlast')
    | cons row' rows' =>
      rw [List.flatMap_cons, List.append_assoc] at h
      obtain ⟨rfl, hrest⟩ := Row.eq_of_words_append_eq h
      cases ih rows' hrest
      rfl

end Division

/-! ## The text of rows -/

theorem toList_render_of_isCode {run : List Word} (h : ∀ word ∈ run, IsCode word) :
    (render run).toList = characters run := by
  induction run using List.reverseRecOn with
  | nil => rfl
  | append_singleton run word ih =>
    rw [List.forall_mem_append, List.forall_mem_singleton] at h
    rw [toList_render, List.foldl_append, List.foldl_cons, List.foldl_nil,
      layOut_of_char (char?_of_isCode h.2), List.reverse_cons, ← toList_render, ih h.1,
      characters_concat]

/-- A run ends in the middle of a line unless it is empty or ends with a newline. -/
theorem endsMidLine_eq_false_iff {run : List Word} (h : ∀ word ∈ run, IsCode word) :
    endsMidLine run = false ↔ run = [] ∨ run.getLast? = some newline := by
  rcases List.eq_nil_or_concat run with rfl | ⟨run, word, rfl⟩
  · simp [endsMidLine]
  · rw [List.concat_eq_append] at h ⊢
    have hword : IsCode word := h word (by simp)
    simp [endsMidLine, char?_of_isCode hword, ofNat_eq_newline_iff hword]

theorem toList_render_row (row : Row) (rest : List Word) :
    (render (row.words ++ rest)).toList = row.text ++ (render rest).toList := by
  have hnumber := char?_of_not_isCode row.not_isCode
  have hnewline : "\n".toList = ['\n'] := rfl
  rw [Row.words, List.append_assoc, List.singleton_append, render_of_number hnumber, Row.text]
  simp only [String.toList_append, toList_render_of_isCode row.isCode_of_mem, hnewline]
  by_cases hend : row.run = [] ∨ row.run.getLast? = some newline
  · rw [(endsMidLine_eq_false_iff row.isCode_of_mem).mpr hend, if_pos hend]
    rfl
  · have hmid : endsMidLine row.run = true :=
      Bool.not_eq_false _ ▸ fun h => hend ((endsMidLine_eq_false_iff row.isCode_of_mem).mp h)
    rw [hmid, if_neg hend]
    rfl

/-- The text of words is that of their rows. -/
theorem toList_render_words (d : Division) : (render d.words).toList = d.text := by
  obtain ⟨rows, last, hlast⟩ := d
  rw [Division.words, Division.text]
  induction rows with
  | nil => exact toList_render_of_isCode hlast
  | cons row rows ih =>
    rw [List.flatMap_cons, List.append_assoc, toList_render_row, ih, List.flatMap_cons,
      List.append_assoc]

/-! ## Lines -/

/-- The lines of a text. What follows the last newline is a line if it is not empty. -/
def textLines (text : List Char) : List (List Char) :=
  let pieces := text.splitOn '\n'
  if pieces.getLast? = some [] then pieces.dropLast else pieces

theorem textLines_nil : textLines [] = [] := by
  simp [textLines]

theorem textLines_append_newline (text rest : List Char) :
    textLines (text ++ '\n' :: rest) = text.splitOn '\n' ++ textLines rest := by
  have hne := List.splitOn_ne_nil '\n' rest
  simp only [textLines, List.splitOn_append_cons_self, List.getLast?_append_of_ne_nil _ hne,
    List.dropLast_append_of_ne_nil hne]
  split <;> rfl

theorem getLast?_splitOn_concat {text : List Char} {c : Char} (hc : c ≠ '\n') :
    ((text ++ [c]).splitOn '\n').getLast? ≠ some [] := by
  induction text with
  | nil => simp [List.splitOn_eq_singleton, hc.symm]
  | cons x text ih =>
    obtain ⟨piece, pieces, hpieces⟩ :=
      List.exists_cons_of_ne_nil (List.splitOn_ne_nil '\n' (text ++ [c]))
    rw [List.cons_append, List.splitOn_cons_eq_if_modifyHead]
    rw [hpieces] at ih ⊢
    split
    · exact ih
    · cases pieces with
      | nil => simp
      | cons next pieces => exact ih

/-- A text that does not end with a newline has the same lines as with one behind it. -/
theorem textLines_concat {text : List Char} {c : Char} (hc : c ≠ '\n') :
    textLines (text ++ [c]) = (text ++ [c]).splitOn '\n' :=
  if_neg (getLast?_splitOn_concat hc)

theorem newline_not_mem_number (word : Word) : '\n' ∉ (Word.text word).toList :=
  Word.not_mem_text (by decide) (by decide) word

/-- What comes before the first newline is the first line. -/
theorem textLines_append_line {line : List Char} (hline : '\n' ∉ line) (rest : List Char) :
    textLines (line ++ '\n' :: rest) = line :: textLines rest := by
  rw [textLines_append_newline, List.splitOn_eq_singleton hline]
  rfl

/-- The number of a row is a line of its own, behind the lines of the run. -/
theorem textLines_row (row : Row) (rest : List Char) :
    textLines (row.text ++ rest) =
      textLines (characters row.run) ++ (Word.text row.number).toList :: textLines rest := by
  have hnumber := textLines_append_line (newline_not_mem_number row.number) rest
  have hcode := row.isCode_of_mem
  have htext : row.text ++ rest = characters row.run ++
      (if row.run = [] ∨ row.run.getLast? = some newline then [] else ['\n']) ++
        ((Word.text row.number).toList ++ '\n' :: rest) := by
    simp [Row.text]
  rw [htext]
  rcases List.eq_nil_or_concat row.run with hrun | ⟨run, word, hrun⟩
  · rw [hrun, if_pos (Or.inl rfl), List.append_nil, ← hnumber]
    rfl
  · rw [List.concat_eq_append] at hrun
    rw [hrun] at hcode
    rw [hrun, characters_concat, List.getLast?_concat]
    by_cases hword : word = newline
    · subst hword
      have hchar : Char.ofNat newline.toNat = '\n' := rfl
      have hrun' : textLines (characters run ++ ['\n']) = (characters run).splitOn '\n' := by
        rw [textLines_append_newline, textLines_nil, List.append_nil]
      rw [if_pos (Or.inr rfl), List.append_nil, hchar, hrun', List.append_assoc,
        List.singleton_append, textLines_append_newline, hnumber]
    · have hchar : Char.ofNat word.toNat ≠ '\n' := fun h =>
        hword ((ofNat_eq_newline_iff (hcode word (by simp))).mp h)
      rw [if_neg (by simpa using hword), textLines_concat hchar, List.append_assoc (_ ++ _) ['\n'],
        List.singleton_append, textLines_append_newline, hnumber]

/-- The lines of words are those of the runs, with the numbers in between. -/
theorem textLines_text (d : Division) :
    textLines d.text =
      d.rows.flatMap (fun row => textLines (characters row.run) ++ [(Word.text row.number).toList]) ++
        textLines (characters d.last) := by
  obtain ⟨rows, last, hlast⟩ := d
  rw [Division.text]
  induction rows with
  | nil => rfl
  | cons row rows ih =>
    rw [List.flatMap_cons, List.append_assoc, textLines_row, ih, List.flatMap_cons]
    simp only [List.append_assoc, List.cons_append, List.nil_append]

theorem number_ne_nil (word : Word) : (Word.text word).toList ≠ [] := by
  intro h
  have hread := Word.ofChars?_of_denotes (Word.denotes_text word)
  rw [h] at hread
  cases hread

/-- A line is blank only within a run. -/
theorem count_nil_textLines_text (d : Division) :
    (textLines d.text).count [] =
      (d.rows.map fun row => (textLines (characters row.run)).count []).sum +
        (textLines (characters d.last)).count [] := by
  rw [textLines_text, List.count_append, List.count_flatMap]
  congr 2
  refine List.map_congr_left fun row _ => ?_
  have hnumber : [(Word.text row.number).toList].count [] = 0 :=
    List.count_eq_zero.mpr fun h => number_ne_nil row.number (List.mem_singleton.mp h).symm
  rw [Function.comp_apply, List.count_append, hnumber, Nat.add_zero]

/-! ## A line of ASCII -/

/-- A line of ASCII is the codes of its characters. -/
theorem encodeLine_of_lt {line : String} (h : ∀ c ∈ line.toList, c.toNat < 128) :
    encodeLine line = (line.toList ++ ['\n']).map fun c => (c.toNat : Word) := by
  rw [encodeLine, Command.toList_toUTF8, Command.utf8, Command.encodeText, List.map_append,
    List.map_flatMap]
  congr 1
  rw [List.map_eq_flatMap]
  refine List.flatMap_congr fun c hc => ?_
  have hlt := h c hc
  have hbyte : (UInt8.ofNat c.toNat).toNat = c.toNat := by
    rw [UInt8.toNat_ofNat']
    omega
  rw [Command.utf8EncodeChar_of_lt hlt, List.map_singleton, hbyte]

theorem characters_codes (text : List Char) :
    characters (text.map fun c => (c.toNat : Word)) = text := by
  rw [characters, List.map_map]
  refine (List.map_congr_left fun c _ => ?_).trans (List.map_id text)
  exact Char.ofNat_toNat c

theorem render_encodeLine {line : String} (h : ∀ c ∈ line.toList, c.toNat < 128) :
    render (encodeLine line) = line ++ "\n" := by
  have hcode : ∀ word ∈ encodeLine line, IsCode word := by
    rw [encodeLine_of_lt h]
    intro word hmem
    obtain ⟨c, hc, rfl⟩ := List.mem_map.mp hmem
    have hlt : c.toNat < 128 := by
      rcases List.mem_append.mp hc with hc | hc
      · exact h c hc
      · rw [List.mem_singleton.mp hc]
        decide
    exact ⟨Int.natCast_nonneg _, by omega⟩
  rw [← String.toList_inj, toList_render_of_isCode hcode, encodeLine_of_lt h, characters_codes,
    String.toList_append]
  rfl

/-! ## The law -/

/-- **Text is laid out line by line.** All words are rows with a last run behind them, in one way only,
and their text is that of the rows and the run. So each number is a line of its own between the lines of
the runs, and no line is blank but for those of the runs. In particular a line of ASCII that is encoded
and rendered comes back, with a newline behind it. -/
theorem render_is_laid_out_by_rows :
    (∀ words : List Word, ∃! d : Division, d.words = words) ∧
    (∀ d : Division, (render d.words).toList = d.text ∧
      textLines d.text =
        d.rows.flatMap (fun row =>
          textLines (characters row.run) ++ [(Word.text row.number).toList]) ++
            textLines (characters d.last) ∧
      (textLines d.text).count [] =
        (d.rows.map fun row => (textLines (characters row.run)).count []).sum +
          (textLines (characters d.last)).count []) ∧
    ∀ line : String, (∀ c ∈ line.toList, c.toNat < 128) →
      render (encodeLine line) = line ++ "\n" := by
  refine ⟨fun words => ?_, fun d => ⟨toList_render_words d, textLines_text d,
    count_nil_textLines_text d⟩, fun _ => render_encodeLine⟩
  obtain ⟨d, hd⟩ := Division.exists_words_eq words
  exact ⟨d, hd, fun d' hd' => Division.words_injective (hd'.trans hd.symm)⟩

/-- Two numbers in front, a run with a blank line in it, one that ends in the middle of a line, and a
last one. -/
theorem render_is_laid_out_by_rows_four :
    let d : Division :=
      ⟨[⟨[], 300, by decide, by decide⟩, ⟨[], 128, by decide, by decide⟩,
        ⟨[104, 105, 10, 10], -5, by decide, by decide⟩, ⟨[97], 1000, by decide, by decide⟩],
        [98], by decide⟩
    d.words = [300, 128, 104, 105, 10, 10, -5, 97, 1000, 98] ∧
    (∀ d' : Division, d'.words = d.words → d' = d) ∧
    (render d.words).toList = "300\n128\nhi\n\n-5\na\n1000\nb".toList ∧
    (textLines d.text).count [] = 1 ∧
    (∀ c ∈ "ok".toList, c.toNat < 128) ∧ render (encodeLine "ok") = "ok\n" := by
  intro d
  have hascii : ∀ c ∈ "ok".toList, c.toNat < 128 := by simp
  obtain ⟨hdivide, hlayout, hline⟩ := render_is_laid_out_by_rows
  obtain ⟨htext, -, hblank⟩ := hlayout d
  refine ⟨by decide, fun d' hd' => (hdivide d.words).unique hd' rfl, htext.trans (by decide +kernel),
    hblank.trans (by decide +kernel), hascii, hline "ok" hascii⟩

end Intcode.Ascii
