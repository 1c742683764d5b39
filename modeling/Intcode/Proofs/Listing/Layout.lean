import Intcode.Proofs.Listing.Sweep
import Intcode.Proofs.Program.RoundTrip

/-!
# Listings are unambiguous

A line of a listing is an address, a heading and arguments. Its layout can be undone because nothing
that separates two parts of it occurs in the part before: no newline in a line, no colon in an address,
no space in a heading and no comma in an argument. An argument shows its mode by a bracket, and by the
name of the relative base.

So a line can be read off its text except for the modes of parameters that its opcode does not have
(`words_plain_eq_of_text_eq`), and a program off its listing except for those
(`listing_is_faithful`).
-/

namespace Intcode

/-! ## Separated parts -/

namespace Listing

section Separators

variable {c : Char} {xs ys as bs sep : List Char} {pieces others : List (List Char)}

/-- A separator that does not occur before it is found. -/
theorem eq_of_append_cons_eq (hxs : c ∉ xs) (hys : c ∉ ys) (h : xs ++ c :: as = ys ++ c :: bs) :
    xs = ys ∧ as = bs := by
  have hsplit := congrArg (List.splitOn c) h
  rw [List.splitOn_append_cons_self_of_not_mem hxs, List.splitOn_append_cons_self_of_not_mem hys]
    at hsplit
  obtain rfl := (List.cons.inj hsplit).1
  exact ⟨rfl, (List.cons.inj (List.append_cancel_left h)).2⟩

/-- Pieces without the first character of the separator can be told apart. -/
theorem intercalate_injective (hpieces : ∀ xs ∈ pieces, c ∉ xs) (hothers : ∀ xs ∈ others, c ∉ xs)
    (hne : pieces ≠ []) (hne' : others ≠ [])
    (h : (c :: sep).intercalate pieces = (c :: sep).intercalate others) : pieces = others := by
  induction pieces generalizing others with
  | nil => exact absurd rfl hne
  | cons xs pieces ih =>
    obtain ⟨ys, others, rfl⟩ := List.exists_cons_of_ne_nil hne'
    have hxs := hpieces xs List.mem_cons_self
    have hys := hothers ys List.mem_cons_self
    rcases pieces with _ | ⟨xs', pieces⟩ <;> rcases others with _ | ⟨ys', others⟩
    · rw [List.intercalate_singleton, List.intercalate_singleton] at h
      rw [h]
    · rw [List.intercalate_singleton, List.intercalate_cons_cons] at h
      exact absurd (h ▸ by simp) hxs
    · rw [List.intercalate_singleton, List.intercalate_cons_cons] at h
      exact absurd (h ▸ by simp) hys
    · rw [List.intercalate_cons_cons, List.intercalate_cons_cons, List.append_assoc,
        List.append_assoc, List.cons_append, List.cons_append] at h
      obtain ⟨rfl, hrest⟩ := eq_of_append_cons_eq hxs hys h
      rw [ih (fun zs hzs => hpieces zs (List.mem_cons_of_mem _ hzs))
        (fun zs hzs => hothers zs (List.mem_cons_of_mem _ hzs)) (List.cons_ne_nil _ _)
        (List.cons_ne_nil _ _) (List.append_cancel_left hrest)]

/-- What occurs neither in the separator nor in a piece does not occur. -/
theorem not_mem_intercalate (hsep : c ∉ sep) (hpieces : ∀ xs ∈ pieces, c ∉ xs) :
    c ∉ sep.intercalate pieces := by
  induction pieces with
  | nil => exact List.not_mem_nil
  | cons xs pieces ih =>
    have hxs := hpieces xs List.mem_cons_self
    have hrest := ih fun ys hys => hpieces ys (List.mem_cons_of_mem _ hys)
    rcases pieces with _ | ⟨ys, pieces⟩
    · rwa [List.intercalate_singleton]
    · rw [List.intercalate_cons_cons, List.mem_append, List.mem_append, not_or, not_or]
      exact ⟨⟨hxs, hsep⟩, hrest⟩

end Separators

end Listing

/-! ## Mnemonics -/

namespace Opcode

theorem mnemonic_injective {op op' : Opcode} (h : op.mnemonic = op'.mnemonic) : op = op' := by
  cases op <;> cases op' <;> first | rfl | simp [mnemonic] at h

theorem mnemonic_ne_data (op : Opcode) : op.mnemonic ≠ "DATA" := by
  cases op <;> decide

end Opcode

/-! ## Words and operands -/

theorem Word.text_injective {word word' : Word} (h : (text word).toList = (text word').toList) :
    word = word' := by
  have hread := ofChars?_of_denotes (denotes_text word)
  rw [h, ofChars?_of_denotes (denotes_text word')] at hread
  exact (Option.some.inj hread).symm

/-- A numeral has nothing in it but digits, underscores and signs. -/
theorem Word.not_mem_text {c : Char} (hdigit : c.isDigit = false) (hc : c ∉ ['_', '+', '-'])
    (word : Word) : c ∉ (text word).toList := by
  intro hmem
  rcases (denotes_text word).filler_or_sign c hmem with (h | rfl) | rfl | rfl
  · rw [hdigit] at h
    cases h
  · exact hc (by decide)
  · exact hc (by decide)
  · exact hc (by decide)

namespace Mode

variable {mode mode' : Mode} {operand operand' : Word}

/-- What an operand consists of. -/
theorem toList_render (mode : Mode) (operand : Word) :
    (mode.render operand).toList =
      match mode with
      | position => '[' :: ((Word.text operand).toList ++ [']'])
      | immediate => (Word.text operand).toList
      | relative =>
        if operand < 0 then '[' :: 'r' :: 'b' :: '-' :: ((Word.text (-operand)).toList ++ [']'])
        else '[' :: 'r' :: 'b' :: '+' :: ((Word.text operand).toList ++ [']']) := by
  cases mode with
  | position => simp [render]
  | immediate => rfl
  | relative => by_cases h : operand < 0 <;> simp [render, h]

/-- An operand has nothing in it but a numeral, brackets and the name of the relative base. -/
theorem not_mem_render {c : Char} (hdigit : c.isDigit = false)
    (hc : c ∉ ['_', '+', '-', '[', ']', 'r', 'b']) (mode : Mode) (operand : Word) :
    c ∉ (mode.render operand).toList := by
  have htext := Word.not_mem_text hdigit (fun h => hc (List.mem_append_left ['[', ']', 'r', 'b'] h))
  simp only [List.mem_cons, List.not_mem_nil, or_false, not_or] at hc
  rw [toList_render]
  cases mode with
  | position => simp [htext, hc]
  | immediate => exact htext operand
  | relative => by_cases h : operand < 0 <;> simp [h, htext, hc]

/-- Brackets stand around all operands but immediate ones. -/
theorem bracket_mem_render_iff (mode : Mode) (operand : Word) :
    '[' ∈ (mode.render operand).toList ↔ mode ≠ .immediate := by
  have htext : '[' ∉ (Word.text operand).toList :=
    Word.not_mem_text (by decide) (by decide) operand
  rw [toList_render]
  cases mode with
  | position => simp
  | immediate => simpa using htext
  | relative => by_cases h : operand < 0 <;> simp [h]

/-- The relative base is named in relative operands. -/
theorem base_mem_render_iff (mode : Mode) (operand : Word) :
    'r' ∈ (mode.render operand).toList ↔ mode = .relative := by
  have htext (word : Word) : 'r' ∉ (Word.text word).toList :=
    Word.not_mem_text (by decide) (by decide) word
  rw [toList_render]
  cases mode with
  | position => simp [htext]
  | immediate => simpa using htext operand
  | relative => by_cases h : operand < 0 <;> simp [h]

/-- An operand is told by its text, and so is its mode. -/
theorem render_injective (h : mode.render operand = mode'.render operand') :
    mode = mode' ∧ operand = operand' := by
  have hbracket : mode ≠ .immediate ↔ mode' ≠ .immediate := by
    rw [← bracket_mem_render_iff mode operand, h, bracket_mem_render_iff]
  have hbase : mode = .relative ↔ mode' = .relative := by
    rw [← base_mem_render_iff mode operand, h, base_mem_render_iff]
  obtain rfl : mode = mode' := by
    cases mode <;> cases mode' <;> simp_all
  refine ⟨rfl, ?_⟩
  have hlist := congrArg String.toList h
  rw [toList_render, toList_render] at hlist
  cases mode with
  | position => exact Word.text_injective (by simpa using hlist)
  | immediate => exact Word.text_injective (by simpa using hlist)
  | relative =>
    by_cases hsign : operand < 0 <;> by_cases hsign' : operand' < 0 <;>
      simp only [hsign, hsign', if_true, if_false] at hlist
    · exact Int.neg_inj.mp (Word.text_injective (by simpa using hlist))
    · simp at hlist
    · simp at hlist
    · exact Word.text_injective (by simpa using hlist)

/-- Operands are told by their texts, and so are their modes. -/
theorem zipWith_render_injective {operands operands' : List Word} {modes modes' : List Mode}
    (h : operands.length = modes.length) (h' : operands'.length = modes'.length)
    (hrender : List.zipWith render operands modes = List.zipWith render operands' modes') :
    operands = operands' ∧ modes = modes' := by
  induction operands generalizing modes operands' modes' with
  | nil =>
    obtain rfl := List.length_eq_zero_iff.mp h.symm
    cases operands' with
    | nil => exact ⟨rfl, (List.length_eq_zero_iff.mp h'.symm).symm⟩
    | cons operand' operands' =>
      obtain ⟨mode', modes', rfl⟩ := List.exists_cons_of_length_eq_add_one h'.symm
      cases hrender
  | cons operand operands ih =>
    obtain ⟨mode, modes, rfl⟩ := List.exists_cons_of_length_eq_add_one h.symm
    cases operands' with
    | nil => cases hrender
    | cons operand' operands' =>
      obtain ⟨mode', modes', rfl⟩ := List.exists_cons_of_length_eq_add_one h'.symm
      rw [List.zipWith_cons_cons, List.zipWith_cons_cons, List.cons.injEq] at hrender
      obtain ⟨rfl, rfl⟩ := render_injective hrender.1
      obtain ⟨rfl, rfl⟩ := ih (Nat.succ.inj h) (Nat.succ.inj h') hrender.2
      exact ⟨rfl, rfl⟩

end Mode

namespace Listing

/-! ## Lines -/

/-- What a line shows behind its address: a heading and arguments. -/
def layout (heading : String) (arguments : List String) : String :=
  match arguments with
  | [] => heading
  | shown => heading ++ " " ++ ", ".intercalate shown

/-- The mnemonic of an instruction, or the name of data. -/
def Line.heading : Line → String
  | code _ i _ => i.opcode.mnemonic
  | data .. => "DATA"

/-- The operands of an instruction, or the word of data. -/
def Line.arguments : Line → List String
  | code _ i operands => List.zipWith Mode.render operands i.used
  | data _ word => [Word.text word]

/-- The text of a line without the newline at its end. -/
def Line.text (line : Line) : List Char :=
  (Text.alignRight 4 (toString line.address)).toList ++
    ':' :: ' ' :: (layout line.heading line.arguments).toList

theorem toList_render (line : Line) : line.render.toList = line.text ++ ['\n'] := by
  cases line with
  | code address i operands =>
    show (Text.alignRight 4 (toString address) ++ ": " ++ i.render operands ++ "\n").toList = _
    have hshown : i.render operands =
        layout i.opcode.mnemonic (List.zipWith Mode.render operands i.used) := rfl
    simp [Line.text, Line.heading, Line.arguments, Line.address, hshown]
  | data address word =>
    show (Text.alignRight 4 (toString address) ++ ": " ++ ("DATA " ++ Word.text word) ++ "\n").toList
      = _
    simp [Line.text, Line.heading, Line.arguments, Line.address, layout]

/-- There are spaces and digits in front of the colon. -/
theorem not_mem_column {c : Char} (hdigit : c.isDigit = false) (hc : c ≠ ' ') (n : Nat) :
    c ∉ (Text.alignRight 4 (toString n)).toList := by
  have hdigits : c ∉ (toString n).toList := by
    intro hmem
    have htoDigits : (toString n).toList = Nat.toDigits 10 n := Nat.toList_repr
    rw [htoDigits] at hmem
    rw [Nat.isDigit_of_mem_toDigits (by decide) (by decide) hmem] at hdigit
    cases hdigit
  rw [Text.alignRight, String.toList_append, String.toList_ofList, List.mem_append, not_or]
  exact ⟨fun hmem => hc (List.eq_of_mem_replicate hmem), hdigits⟩

theorem not_mem_heading {c : Char} (hc : c = ' ' ∨ c = '\n') (line : Line) :
    c ∉ line.heading.toList := by
  cases line with
  | code _ i _ =>
    rcases hc with rfl | rfl <;> cases hop : i.opcode <;> simp [Line.heading, hop, Opcode.mnemonic]
  | data => rcases hc with rfl | rfl <;> simp [Line.heading]

theorem not_mem_arguments {c : Char} (hc : c = ',' ∨ c = '\n') (line : Line) :
    ∀ shown ∈ line.arguments, c ∉ shown.toList := by
  have hdigit : c.isDigit = false := by rcases hc with rfl | rfl <;> decide
  have hother : c ∉ ['_', '+', '-', '[', ']', 'r', 'b'] := by rcases hc with rfl | rfl <;> decide
  intro shown hmem
  cases line with
  | code _ i operands =>
    obtain ⟨operand, mode, rfl⟩ : ∃ operand mode, shown = Mode.render operand mode := by
      obtain ⟨k, hk, rfl⟩ := List.mem_iff_getElem.mp hmem
      exact ⟨_, _, List.getElem_zipWith ..⟩
    exact Mode.not_mem_render hdigit hother _ _
  | data _ word =>
    rw [List.mem_singleton.mp hmem]
    exact Mode.not_mem_render hdigit hother .immediate word

theorem layout_nil (heading : String) : layout heading [] = heading := rfl

theorem toList_layout_cons (heading shown : String) (arguments : List String) :
    (layout heading (shown :: arguments)).toList =
      heading.toList ++ ' ' :: [',', ' '].intercalate ((shown :: arguments).map String.toList) := by
  simp [layout, String.toList_intercalate]

/-- A heading without spaces and arguments without commas can be told apart. -/
theorem layout_injective {heading heading' : String} {arguments arguments' : List String}
    (hheading : ' ' ∉ heading.toList) (hheading' : ' ' ∉ heading'.toList)
    (harguments : ∀ shown ∈ arguments, ',' ∉ shown.toList)
    (harguments' : ∀ shown ∈ arguments', ',' ∉ shown.toList)
    (h : (layout heading arguments).toList = (layout heading' arguments').toList) :
    heading = heading' ∧ arguments = arguments' := by
  cases arguments with
  | nil =>
    cases arguments' with
    | nil => exact ⟨String.toList_inj.mp h, rfl⟩
    | cons =>
      rw [layout_nil, toList_layout_cons] at h
      exact absurd (h ▸ by simp) hheading
  | cons shown arguments =>
    cases arguments' with
    | nil =>
      rw [layout_nil, toList_layout_cons] at h
      exact absurd (h ▸ by simp) hheading'
    | cons shown' arguments' =>
      rw [toList_layout_cons, toList_layout_cons] at h
      obtain ⟨hsame, hrest⟩ := eq_of_append_cons_eq hheading hheading' h
      have hpieces := intercalate_injective (by simpa using harguments)
        (by simpa using harguments') (by simp) (by simp) hrest
      exact ⟨String.toList_inj.mp hsame,
        List.map_injective_iff.mpr (fun _ _ => String.toList_inj.mp) hpieces⟩

/-- There is no newline in a line. -/
theorem newline_not_mem_text (line : Line) : '\n' ∉ line.text := by
  have hcolumn := not_mem_column (c := '\n') (by decide) (by decide) line.address
  have hheading := not_mem_heading (Or.inr rfl) line
  have harguments := not_mem_arguments (Or.inr rfl) line
  have hlayout : '\n' ∉ (layout line.heading line.arguments).toList := by
    cases hshown : line.arguments with
    | nil => exact hheading
    | cons shown arguments =>
      have hjoined : '\n' ∉ [',', ' '].intercalate ((shown :: arguments).map String.toList) :=
        not_mem_intercalate (by decide) (by simpa [hshown] using harguments)
      rw [toList_layout_cons, List.mem_append, List.mem_cons, not_or, not_or]
      exact ⟨hheading, by decide, hjoined⟩
  rw [Line.text, List.mem_append, List.mem_cons, List.mem_cons, not_or, not_or, not_or]
  exact ⟨hcolumn, by decide, by decide, hlayout⟩

/-! ## Reading lines off their texts -/

/-- A line of code shows as many operands as its opcode has parameters. -/
def Line.IsComplete : Line → Prop
  | code _ i operands => operands.length = i.opcode.arity
  | data .. => True

theorem Sweeps.isComplete {address : Nat} {words : List Word} {lines : List Line}
    (h : Sweeps address words lines) : ∀ line ∈ lines, line.IsComplete := by
  induction h with
  | nil address => exact fun _ hmem => absurd hmem List.not_mem_nil
  | code hoperands _ ih => exact List.forall_mem_cons.mpr ⟨hoperands, ih⟩
  | data _ _ ih => exact List.forall_mem_cons.mpr ⟨trivial, ih⟩

/-- The text of a line tells its words but for the modes of unused parameters. -/
theorem words_plain_eq_of_text_eq {line line' : Line} (h : line.IsComplete) (h' : line'.IsComplete)
    (htext : line.text = line'.text) : line.plain.words = line'.plain.words := by
  obtain ⟨-, hlayout⟩ := eq_of_append_cons_eq
    (not_mem_column (by decide) (by decide) _) (not_mem_column (by decide) (by decide) _) htext
  obtain ⟨hheading, harguments⟩ := layout_injective
    (not_mem_heading (Or.inl rfl) line) (not_mem_heading (Or.inl rfl) line')
    (not_mem_arguments (Or.inl rfl) line) (not_mem_arguments (Or.inl rfl) line')
    (List.cons.inj hlayout).2
  cases line with
  | code address i operands =>
    cases line' with
    | code address' i' operands' =>
      have hopcode : i.opcode = i'.opcode := Opcode.mnemonic_injective hheading
      obtain ⟨rfl, hused⟩ := Mode.zipWith_render_injective
        (h.trans i.length_used.symm) (h'.trans i'.length_used.symm) harguments
      rw [Line.plain, Line.plain, Line.words, Line.words, Instruction.plain_congr hopcode hused]
    | data address' word' => exact absurd hheading i.opcode.mnemonic_ne_data
  | data address word =>
    cases line' with
    | code address' i' operands' => exact absurd hheading.symm i'.opcode.mnemonic_ne_data
    | data address' word' =>
      obtain rfl := Word.text_injective (congrArg String.toList (List.cons.inj harguments).1)
      rfl

/-- So do the texts of lines. -/
theorem flatMap_plain_eq_of_map_text_eq {lines lines' : List Line}
    (h : ∀ line ∈ lines, line.IsComplete) (h' : ∀ line ∈ lines', line.IsComplete)
    (htext : lines.map Line.text = lines'.map Line.text) :
    (lines.flatMap fun line => line.plain.words) = lines'.flatMap fun line => line.plain.words := by
  induction lines generalizing lines' with
  | nil => rw [List.map_eq_nil_iff.mp htext.symm]
  | cons line lines ih =>
    obtain ⟨line', lines', rfl, hline, hlines⟩ := List.map_eq_cons_iff.mp htext.symm
    rw [List.forall_mem_cons] at h h'
    rw [List.flatMap_cons, List.flatMap_cons, words_plain_eq_of_text_eq h.1 h'.1 hline.symm,
      ih h.2 h'.2 hlines.symm]

/-- To cut rendered lines at the newlines gives their texts. -/
theorem splitOn_newline (lines : List Line) :
    (lines.flatMap fun line => line.render.toList).splitOn '\n' = lines.map Line.text ++ [[]] := by
  induction lines with
  | nil => rfl
  | cons line lines ih =>
    rw [List.flatMap_cons, toList_render, List.append_assoc, List.singleton_append,
      List.splitOn_append_cons_self_of_not_mem (newline_not_mem_text line), ih]
    rfl

/-- Modes of unused parameters are not shown. -/
theorem render_plain (line : Line) : line.plain.render = line.render := by
  cases line with
  | code address i operands =>
    have hshown : i.plain.render operands = i.render operands := by
      rw [Instruction.render, Instruction.render, ← Instruction.used, ← Instruction.used,
        Instruction.used_plain, Instruction.opcode_plain]
    show Text.alignRight 4 (toString address) ++ ": " ++ i.plain.render operands ++ "\n" = _
    rw [hshown]
    rfl
  | data => rfl

end Listing

namespace Program

open Listing

/-- The program with the modes of unused parameters reset in every word that is listed as an
instruction. -/
def plain (program : Program) : Program :=
  ⟨program.lines.flatMap fun line => line.plain.words⟩

theorem sweeps_lines (program : Program) : Sweeps 0 program.words program.lines :=
  sweeps_linesFrom 0 program.words

theorem lines_plain (program : Program) : program.plain.lines = program.lines.map Line.plain :=
  (sweeps_iff.mp program.sweeps_lines.plain).symm

/-- A program is listed as if unused modes were reset. -/
theorem listing_plain (program : Program) : program.plain.listing = program.listing := by
  have hrender : Line.render ∘ Line.plain = Line.render := funext render_plain
  rw [listing, lines_plain, List.map_map, hrender, listing]

theorem length_words_plain (program : Program) :
    program.plain.words.length = program.words.length := by
  rw [plain, length_flatMap_plain, program.sweeps_lines.flatMap_words]

/-- The lines of the text of a listing. -/
theorem splitOn_listing (program : Program) :
    program.listing.toList.splitOn '\n' = program.lines.map Line.text ++ [[]] := by
  rw [listing, String.toList_join, List.flatMap_map, splitOn_newline]

/-- Programs are listed alike if they differ in unused modes only, and not otherwise. -/
theorem listing_eq_iff {p q : Program} : p.listing = q.listing ↔ p.plain = q.plain := by
  constructor
  · intro h
    have hlines := p.splitOn_listing
    rw [h, q.splitOn_listing, List.append_left_inj] at hlines
    rw [plain, plain, flatMap_plain_eq_of_map_text_eq p.sweeps_lines.isComplete
      q.sweeps_lines.isComplete hlines.symm]
  · intro h
    rw [← p.listing_plain, h, q.listing_plain]

/-- **A listing is a faithful and unambiguous tiling.** The text of a listing has one line for each of
`p.lines`. Their addresses increase, the spans of words that they cover are the addresses of the
program, each once and in order, and the words that they show are the words of the program. A line is
an instruction exactly if the word at its address decodes to it and all its operands lie inside the
program. And two programs have the same listing exactly if they are of one length and become the same
when in every word that is listed as an instruction the modes of the parameters that the opcode does
not have are reset. -/
theorem listing_is_faithful (p : Program) :
    p.listing.toList.splitOn '\n' = p.lines.map Line.text ++ [[]] ∧
    (p.lines.map Line.address).Pairwise (· < ·) ∧
    p.lines.flatMap Line.span = List.range p.words.length ∧
    p.lines.flatMap Line.words = p.words ∧
    (∀ line ∈ p.lines, ∃ word, p.words[line.address]? = some word ∧
      ∀ i, (∃ operands, line = .code line.address i operands) ↔
        Instruction.decode word = .ok i ∧ line.address + i.width ≤ p.words.length) ∧
    ∀ q : Program, p.listing = q.listing ↔ p.words.length = q.words.length ∧ p.plain = q.plain := by
  have hsweeps := p.sweeps_lines
  refine ⟨p.splitOn_listing, hsweeps.pairwise_address, ?_, hsweeps.flatMap_words, ?_, fun q => ?_⟩
  · rw [hsweeps.flatMap_span, List.range_eq_range']
  · intro line hmem
    obtain ⟨before, word, rest, hwords, haddress, hiff⟩ := hsweeps.exists_word line hmem
    rw [Nat.zero_add] at haddress
    refine ⟨word, by rw [hwords, haddress, List.getElem?_append_right (Nat.le_refl _)]; simp,
      fun i => (hiff i).trans (and_congr_right fun _ => ?_)⟩
    rw [hwords, haddress, List.length_append, List.length_cons, Instruction.width]
    omega
  · constructor
    · intro h
      have hplain := listing_eq_iff.mp h
      exact ⟨by rw [← p.length_words_plain, hplain, q.length_words_plain], hplain⟩
    · rintro ⟨-, hplain⟩
      exact listing_eq_iff.mpr hplain

/-- An output instruction with two modes too many, and behind it an addition that lacks an operand, of
which all modes count. -/
theorem listing_is_faithful_truncated :
    let p : Program := ⟨[22204, 7, 1101, 2, 3]⟩
    let i : Instruction := ⟨.output, .relative, .relative, .relative⟩
    p.lines = [.code 0 i [7], .data 2 1101, .data 3 2, .data 4 3] ∧
      Line.code 0 i [7] ∈ p.lines ∧ Instruction.decode 22204 = .ok i ∧ 0 + i.width ≤ 5 ∧
      p.listing = (⟨[204, 7, 1101, 2, 3]⟩ : Program).listing ∧
      p.listing ≠ (⟨[204, 7, 21101, 2, 3]⟩ : Program).listing := by
  intro p i
  obtain ⟨-, -, -, -, hcode, hsame⟩ := listing_is_faithful p
  have hlines : p.lines = [.code 0 i [7], .data 2 1101, .data 3 2, .data 4 3] := by decide +kernel
  have hfirst : Line.code 0 i [7] ∈ p.lines := hlines ▸ List.mem_cons_self
  obtain ⟨word, hword, hiff⟩ := hcode _ hfirst
  obtain rfl : 22204 = word := Option.some.inj hword
  obtain ⟨hdecode, hinside⟩ := (hiff i).mp ⟨[7], rfl⟩
  refine ⟨hlines, hfirst, hdecode, hinside, ?_, fun h => ?_⟩
  · exact (hsame _).mpr ⟨rfl, by decide +kernel⟩
  · exact absurd ((hsame _).mp h).2 (by decide +kernel)

end Program

end Intcode
