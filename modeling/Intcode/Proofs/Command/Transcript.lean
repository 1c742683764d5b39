import Intcode.Proofs.Ascii.Seams
import Intcode.Proofs.Command.Invocation

/-!
# Output as text

With `--ascii-output`, the words that a program puts out are laid out as text each time it rests, without
regard to what was laid out before. Where it rests depends on how its input arrives, and so does the text,
though the words do not: where the program has put out part of a line, rests, and goes on with a word that
is no character, the newline before that word is missing. Apart from such seams the text is that of all
words together, and without lines to be read there are none.
-/

namespace Intcode.Command.Invocation

open Machine Ascii

variable {v w : Invocation} {outs outs' : List (List Word)} {out : String}

/-- The words of all input, if lines are text: those of all lists and lines that the arguments give, then
those of standard input. -/
def textWords (v : Invocation) : List Word :=
  (valuesOf "--input" v.arguments).flatMap listed ++
    (valuesOf "--ascii" v.arguments ++ v.lines).flatMap encodeLine

/-- The program halts, and these are the words that it puts out before, between and after the lines that
it is given. -/
def HaltsWith (v : Invocation) (outs : List (List Word)) : Prop :=
  ∃ read unread n, v.lines = read ++ unread ∧
    Converses v.options.asciiOutput v.machine read outs n ∧ n.status = .halted

theorem exits_zero_iff (htext : v.options.asciiOutput = true) :
    v.Exits 0 out ↔ ∃ outs, v.HaltsWith outs ∧ out = String.join (outs.map render) := by
  have hshown (outs : List (List Word)) :
      shown v.options.asciiOutput outs = String.join (outs.map render) := by
    rw [htext]
    rfl
  simp only [exits_iff, concludes_zero_iff, hshown]
  constructor
  · rintro ⟨read, unread, outs, n, hlines, hconverses, hn, hout⟩
    exact ⟨outs, ⟨read, unread, n, hlines, hconverses, hn⟩, hout⟩
  · rintro ⟨outs, ⟨read, unread, n, hlines, hconverses, hn⟩, hout⟩
    exact ⟨read, unread, outs, n, hlines, hconverses, hn, hout⟩

/-- A program halts with the words that its machine settles with when all input is queued. -/
theorem exists_haltsWith_iff (htext : v.options.asciiOutput = true) {words : List Word} :
    (∃ outs, v.HaltsWith outs ∧ outs.flatten = words) ↔
      ∃ n, ((Machine.ofProgram v.program (configFor v.options.bits64)).extend v.textWords).Settles
        words n ∧ n.status = .halted := by
  have hmachine : v.machine.extend (v.lines.flatMap (wordsIn true)) =
      (Machine.ofProgram v.program (configFor v.options.bits64)).extend v.textWords := by
    rw [machine, Machine.extend_extend, List.append_assoc, textWords, List.flatMap_append]
    rfl
  have hsome : ∀ line ∈ v.lines, (wordsOf? true line).isSome = true := fun _ _ => rfl
  have hsettles := @exists_converses_iff_settles true v.machine v.lines words hsome 0
  simp only [hmachine, concludes_zero_iff] at hsettles
  rw [← hsettles]
  simp only [HaltsWith, htext]
  constructor
  · rintro ⟨outs, ⟨read, unread, n, hlines, hconverses, hn⟩, hwords⟩
    exact ⟨read, unread, outs, n, hlines, hconverses, hn, hwords⟩
  · rintro ⟨read, unread, outs, n, hlines, hconverses, hn, hwords⟩
    exact ⟨outs, ⟨read, unread, n, hlines, hconverses, hn⟩, hwords⟩

/-- Without lines to be read there is one piece. -/
theorem HaltsWith.isSeamless_of_lines_eq_nil (h : v.HaltsWith outs) (hlines : v.lines = []) :
    IsSeamless outs := by
  obtain ⟨read, unread, n, hread, hconverses, -⟩ := h
  obtain ⟨rfl, -⟩ := List.append_eq_nil_iff.mp (hread.symm.trans hlines)
  obtain ⟨words, rfl⟩ := List.length_eq_one_iff.mp hconverses.length_eq
  exact isSeamless_singleton words

/-- **Output as text is laid out in pieces.** Take any invocation with `--ascii-output`. It halts showing
the texts of what the program has put out between one rest and the next, one behind the other. That is the
text of all words together exactly if there is no seam: no piece that begins with a word that is no
character, behind pieces that end in the middle of a line. Without lines on standard input there is none;
and at a seam nothing but the newline before that word is missing, for in a piece every such word stands
in decimal on a line of its own. Whichever of the words of its input come with the arguments and whichever
are read, the program halts or not, and puts out the same words if it does; so the text is the same as
well if neither has a seam. -/
theorem text_is_laid_out_in_pieces (v : Invocation) (htext : v.options.asciiOutput = true) :
    (∀ out, v.Exits 0 out ↔ ∃ outs, v.HaltsWith outs ∧ out = String.join (outs.map render)) ∧
    (∀ outs, v.HaltsWith outs →
      (String.join (outs.map render) = render outs.flatten ↔ IsSeamless outs) ∧
      (v.lines = [] → IsSeamless outs) ∧
      ∀ earlier before word after later, outs = earlier ++ (before ++ word :: after) :: later →
        char? word = none →
          ∃ front, String.join (outs.map render) =
              front ++ Word.text word ++ "\n" ++ (render after ++ String.join (later.map render)) ∧
            (IsFresh front ↔ ¬ (before = [] ∧ endsMidLine earlier.flatten = true))) ∧
    ∀ w : Invocation, w.options.asciiOutput = true → w.program = v.program →
      w.options.bits64 = v.options.bits64 → w.textWords = v.textWords →
        ((∃ outs, v.HaltsWith outs) ↔ ∃ outs, w.HaltsWith outs) ∧
        ∀ outs outs', v.HaltsWith outs → w.HaltsWith outs' →
          outs.flatten = outs'.flatten ∧
          (IsSeamless outs → IsSeamless outs' →
            String.join (outs.map render) = String.join (outs'.map render)) := by
  refine ⟨fun out => exits_zero_iff htext, fun outs h => ⟨join_render_eq_iff outs,
    h.isSeamless_of_lines_eq_nil, ?_⟩, fun w htext' hprogram hbits hwords => ?_⟩
  · rintro earlier before word after later rfl hnumber
    exact join_render_of_number hnumber earlier later before after
  · have hsame (words : List Word) : (∃ outs, v.HaltsWith outs ∧ outs.flatten = words) ↔
        ∃ outs, w.HaltsWith outs ∧ outs.flatten = words := by
      rw [exists_haltsWith_iff htext, exists_haltsWith_iff htext', hprogram, hbits, hwords]
    refine ⟨⟨?_, ?_⟩, fun outs outs' h h' => ?_⟩
    · rintro ⟨outs, h⟩
      obtain ⟨outs', h', -⟩ := (hsame _).mp ⟨outs, h, rfl⟩
      exact ⟨outs', h'⟩
    · rintro ⟨outs', h'⟩
      obtain ⟨outs, h, -⟩ := (hsame _).mpr ⟨outs', h', rfl⟩
      exact ⟨outs, h⟩
    · obtain ⟨n, hsettles, -⟩ := (exists_haltsWith_iff htext).mp ⟨outs, h, rfl⟩
      obtain ⟨n', hsettles', -⟩ :=
        (exists_haltsWith_iff htext).mp ((hsame _).mpr ⟨outs', h', rfl⟩)
      have hflatten : outs.flatten = outs'.flatten := (hsettles.unique hsettles').1
      refine ⟨hflatten, fun hseamless hseamless' => ?_⟩
      rw [(join_render_eq_iff outs).mpr hseamless, (join_render_eq_iff outs').mpr hseamless',
        hflatten]

/-- A program that puts out a letter, reads a line and puts out a number, with the line read from standard
input and with the line among the arguments. -/
theorem text_is_laid_out_in_pieces_seam :
    ∃ v w : Invocation, v.arguments = ["p", "--ascii-output"] ∧ v.text = "x\n" ∧
      w.arguments = ["p", "--ascii-output", "--ascii", "x"] ∧ w.text = "" ∧
      v.program = ⟨[104, 97, 3, 50, 104, 1000, 99]⟩ ∧ w.program = v.program ∧
      v.options.asciiOutput = true ∧ w.options.asciiOutput = true ∧ w.textWords = v.textWords ∧
      v.HaltsWith [[97], [1000]] ∧ w.HaltsWith [[97, 1000]] ∧ ¬ IsSeamless [[97], [1000]] ∧
      v.Exits 0 "a1000\n" ∧ w.Exits 0 "a\n1000\n" := by
  let v : Invocation :=
    { arguments := ["p", "--ascii-output"]
      files := fun _ => .ok (utf8 "104,97,3,50,104,1000,99")
      stdin := utf8 "x\n"
      options := { file := "p", asciiOutput := true }
      program := ⟨[104, 97, 3, 50, 104, 1000, 99]⟩
      text := "x\n"
      accepted := by decide +kernel
      loaded := by decide +kernel
      decoded := decodeText?_eq_some_iff.mpr rfl }
  let w : Invocation :=
    { v with
      arguments := ["p", "--ascii-output", "--ascii", "x"]
      stdin := utf8 ""
      options := { file := "p", asciiOutput := true, lines := ["x"] }
      text := ""
      accepted := by decide +kernel
      decoded := decodeText?_eq_some_iff.mpr rfl }
  have hwords : w.textWords = v.textWords := by decide +kernel
  -- with the line on standard input the machine rests after two steps, and has halted after three more
  let l : Machine := Machine.step^[2] v.machine
  have hfirst : v.machine.Settles [97] l :=
    ⟨2, rfl, by decide +kernel, by decide +kernel, Machine.step_step_of_isAtRest (by decide +kernel)⟩
  have hsecond : (l.extend (encodeLine "x")).Settles [1000] (Machine.step^[3] (l.extend (encodeLine "x"))) :=
    ⟨3, rfl, by decide +kernel, by decide +kernel, Machine.step_step_of_isAtRest (by decide +kernel)⟩
  have hv : v.HaltsWith [[97], [1000]] :=
    ⟨["x"], [], _, by decide +kernel, .feeds hfirst (by decide +kernel) rfl (.rests hsecond),
      by decide +kernel⟩
  have hall : w.machine.Settles [97, 1000] (Machine.step^[4] w.machine) :=
    ⟨4, rfl, by decide +kernel, by decide +kernel, Machine.step_step_of_isAtRest (by decide +kernel)⟩
  have hw : w.HaltsWith [[97, 1000]] :=
    ⟨[], [], _, by decide +kernel, .rests hall, by decide +kernel⟩
  obtain ⟨hexits, hpieces, -⟩ := text_is_laid_out_in_pieces v rfl
  obtain ⟨hexits', -, -⟩ := text_is_laid_out_in_pieces w rfl
  have hseam : ¬ IsSeamless [[97], [1000]] := by
    rw [← (hpieces _ hv).1]
    decide +kernel
  exact ⟨v, w, rfl, rfl, rfl, rfl, rfl, rfl, rfl, rfl, hwords, hv, hw, hseam,
    (hexits _).mpr ⟨_, hv, by decide +kernel⟩, (hexits' _).mpr ⟨_, hw, by decide +kernel⟩⟩

/-- The text is not always that of all words together, nor the same for every way in which the input
arrives. -/
theorem text_misses_newline_at_seam :
    let files : String → Except String (List UInt8) := fun _ => .ok (utf8 "104,97,3,50,104,1000,99")
    let ended (arguments : List String) (stdin : String) : Option (Nat × String) :=
      (execute 10 ("run" :: arguments) files (utf8 stdin)).map fun r => (r.verdict.code, r.console.out)
    let words := ((Program.run ⟨[104, 97, 3, 50, 104, 1000, 99]⟩ (encodeLine "x") 10).map Prod.fst)
    ended ["p", "--ascii-output"] "x\n" = some (0, "a1000\n") ∧
      ended ["p", "--ascii-output", "--ascii", "x"] "" = some (0, "a\n1000\n") ∧
      words = some [97, 1000] ∧ render [97, 1000] = "a\n1000\n" ∧ char? 1000 = none := by
  decide +kernel

end Intcode.Command.Invocation
