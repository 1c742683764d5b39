import Intcode.Command.Job
import Intcode.Proofs.Command.Conversation

/-!
# The command `run`

An invocation of `run` whose arguments are accepted and whose program loads, on a standard input that is
a text, is a conversation with the machine that the arguments describe. The exit code says how that ends,
and standard output shows every word of it once and in order (`Invocation.exits_iff`). The lines behind
those that the machine was given are not looked at, and as long as words are only ever listed, it makes no
difference which of them come with the arguments and which are read.
-/

namespace Intcode.Command

/-- An invocation of `run` that gets as far as running the program, on a standard input that is valid
UTF-8. -/
structure Invocation where
  arguments : List String
  files : String → Except String (List UInt8)
  stdin : List UInt8
  options : RunOptions
  program : Program
  text : String
  accepted : RunOptions.parse arguments = .ok options
  loaded : loadProgram options.file (files options.file) = .ok program
  decoded : decodeText? stdin = some text

namespace Invocation

variable {v w : Invocation} {code : Nat} {out : String}

/-- The lines of standard input. -/
def lines (v : Invocation) : List String :=
  linesOf v.text

/-- The machine that is set up: the words of all lists that the arguments give are queued before all
lines of text that they give. -/
def machine (v : Invocation) : Machine :=
  (Machine.ofProgram v.program (configFor v.options.bits64)).extend
    ((valuesOf "--input" v.arguments).flatMap listed ++
      (valuesOf "--ascii" v.arguments).flatMap Ascii.encodeLine)

/-- The invocation comes to an end, with an exit code and a standard output. -/
def Exits (v : Invocation) (code : Nat) (out : String) : Prop :=
  ∃ fuel report, execute fuel ("run" :: v.arguments) v.files v.stdin = some report ∧
    report.verdict.code = code ∧ report.console.out = out

/-! ## Setting up -/

theorem foldl_pushLine (m : Machine) (lines : List String) :
    lines.foldl Machine.pushLine m = m.extend (lines.flatMap Ascii.encodeLine) := by
  induction lines generalizing m with
  | nil => exact (Machine.extend_nil m).symm
  | cons line lines ih =>
    rw [List.foldl_cons, ih, List.flatMap_cons, Machine.pushLine, Machine.extend_extend]

/-- A session begins with the machine that the arguments describe. -/
theorem machine_ofOptions (v : Invocation) :
    (Session.ofOptions v.options v.program).machine = v.machine := by
  obtain ⟨-, hinputs, hlines⟩ := RunOptions.input_of_parse v.accepted
  show v.options.lines.foldl Machine.pushLine (Machine.extend _ v.options.inputs) = _
  rw [foldl_pushLine, Machine.extend_extend, hinputs, hlines]
  rfl

/-- The invocation is a session on the lines of standard input. -/
theorem execute_eq (v : Invocation) (fuel : Nat) :
    execute fuel ("run" :: v.arguments) v.files v.stdin =
      (Session.ofOptions v.options v.program).play fuel (v.lines.map utf8) := by
  rw [execute, Request.parse_run_of_ok v.accepted, lines, ← inputLines_of_decodeText? v.decoded]
  simp only [Request.start, Request.file, v.loaded, Job.perform]

/-! ## Coming to an end -/

/-- An invocation comes to one end. -/
theorem Exits.unique {code' : Nat} {out' : String} (h : v.Exits code out) (h' : v.Exits code' out') :
    code = code' ∧ out = out' := by
  obtain ⟨fuel, report, hreport, rfl, rfl⟩ := h
  obtain ⟨fuel', report', hreport', rfl, rfl⟩ := h'
  rw [execute_eq] at hreport hreport'
  obtain rfl := Session.play_unique hreport hreport'
  exact ⟨rfl, rfl⟩

/-- It comes to the end of a conversation that is over, and shows its words. -/
theorem exits_of_converses {read unread : List String} {outs : List (List Word)} {n : Machine}
    (hlines : v.lines = read ++ unread)
    (hconverses : Converses v.options.asciiOutput v.machine read outs n)
    (hconcludes : Concludes v.options.asciiOutput n unread code) :
    v.Exits code (shown v.options.asciiOutput outs) := by
  have hmachine := congrArg Machine.cleared v.machine_ofOptions
  obtain ⟨fuel, report, hreport, hcode, hout⟩ :=
    Session.exists_play (s := Session.ofOptions v.options v.program) hconverses hconcludes hmachine rfl
  refine ⟨fuel, report, ?_, hcode, hout.trans String.empty_append⟩
  rw [execute_eq, hlines, hreport]

theorem exits_iff :
    v.Exits code out ↔ ∃ read unread outs n, v.lines = read ++ unread ∧
      Converses v.options.asciiOutput v.machine read outs n ∧
      Concludes v.options.asciiOutput n unread code ∧ out = shown v.options.asciiOutput outs := by
  constructor
  · intro h
    have hexits := h
    obtain ⟨fuel, report, hreport, -⟩ := hexits
    rw [execute_eq] at hreport
    have hmachine := congrArg Machine.cleared v.machine_ofOptions
    obtain ⟨read, unread, outs, n, code', hlines, hconverses, hconcludes⟩ :=
      Session.exists_converses hreport hmachine rfl
    obtain ⟨rfl, rfl⟩ := h.unique (exits_of_converses hlines hconverses hconcludes)
    exact ⟨read, unread, outs, n, hlines, hconverses, hconcludes, rfl⟩
  · rintro ⟨read, unread, outs, n, hlines, hconverses, hconcludes, rfl⟩
    exact exits_of_converses hlines hconverses hconcludes

/-! ## Lists of words -/

/-- All input is in lists of words, and all output in decimal. -/
structure IsPlain (v : Invocation) : Prop where
  decimal : v.options.asciiOutput = false
  no_text : valuesOf "--ascii" v.arguments = []
  listed : ∀ line ∈ v.lines, (listed? line).isSome = true

/-- The words of all lists: those of the arguments, then those of standard input. -/
def words (v : Invocation) : List Word :=
  (valuesOf "--input" v.arguments ++ v.lines).flatMap listed

/-- What comes of lists of words is what the machine settles as with all of them at once. -/
theorem IsPlain.exits_iff (h : v.IsPlain) :
    v.Exits code out ↔ ∃ words n,
      ((Machine.ofProgram v.program (configFor v.options.bits64)).extend v.words).Settles words n ∧
        Concludes false n [] code ∧ out = decimals words := by
  have hmachine : v.machine.extend (v.lines.flatMap (wordsIn false)) =
      (Machine.ofProgram v.program (configFor v.options.bits64)).extend v.words := by
    rw [machine, h.no_text, List.flatMap_nil, List.append_nil, Machine.extend_extend, words,
      List.flatMap_append]
    rfl
  rw [Invocation.exits_iff, h.decimal, ← hmachine]
  constructor
  · rintro ⟨read, unread, outs, n, hlines, hconverses, hconcludes, rfl⟩
    obtain ⟨n', hsettles, hover⟩ := (exists_converses_iff_settles h.listed code).mp
      ⟨read, unread, outs, n, hlines, hconverses, hconcludes, rfl⟩
    exact ⟨outs.flatten, n', hsettles, hover, shown_false outs⟩
  · rintro ⟨words, n, hsettles, hover, rfl⟩
    obtain ⟨read, unread, outs, n', hlines, hconverses, hconcludes, rfl⟩ :=
      (exists_converses_iff_settles h.listed code).mpr ⟨n, hsettles, hover⟩
    exact ⟨read, unread, outs, n', hlines, hconverses, hconcludes, (shown_false outs).symm⟩

/-- **The command `run` shows every word and tells how it ended.** Take any invocation with arguments that
are accepted, a program that loads and a standard input that is a text. It comes to an end exactly if the
machine, given one line of standard input each time it waits for input and none at any other time, comes
to its last rest: with code 0 if it has halted, 3 if it has faulted, 2 if it waits and there is no line
left, and 1 if it waits and the next line is no list of words, though words are to be listed. Standard
output is then what the machine has put out: each word in decimal on a line of its own, or with
`--ascii-output` the texts of what it has put out between one rest and the next. The code and the output
are determined, and what lies behind the lines that were looked at makes no difference to them. And if all
input is in lists of words and no output is to be text, nothing but the sequence of all words matters, not
which of them come with the arguments and which are read. -/
theorem run_shows_all_output (v : Invocation) :
    (∀ code out, v.Exits code out ↔
      ∃ read unread outs n, v.lines = read ++ unread ∧
        Converses v.options.asciiOutput v.machine read outs n ∧
        Concludes v.options.asciiOutput n unread code ∧
        out = if v.options.asciiOutput then String.join (outs.map Ascii.render)
          else decimals outs.flatten) ∧
    (∀ {code code' out out'}, v.Exits code out → v.Exits code' out' → code = code' ∧ out = out') ∧
    (∀ {read unread outs n code out}, v.lines = read ++ unread →
      Converses v.options.asciiOutput v.machine read outs n →
      Concludes v.options.asciiOutput n unread code → v.Exits code out →
      ∀ stdin text other (decoded : decodeText? stdin = some text), linesOf text = read ++ other →
        code = 0 ∨ code = 3 ∨ other.head? = unread.head? →
          Exits { v with stdin, text, decoded } code out) ∧
    ∀ w : Invocation, v.IsPlain → w.IsPlain → v.program = w.program →
      v.options.bits64 = w.options.bits64 → v.words = w.words →
        ∀ code out, v.Exits code out ↔ w.Exits code out := by
  have hshown (outs : List (List Word)) : shown v.options.asciiOutput outs =
      if v.options.asciiOutput then String.join (outs.map Ascii.render)
        else decimals outs.flatten := by
    cases v.options.asciiOutput with
    | true => rfl
    | false => exact shown_false outs
  refine ⟨fun code out => ?_, Exits.unique, ?_, fun w hv hw hprogram hbits hwords code out => ?_⟩
  · rw [exits_iff]
    simp only [hshown]
  · intro read unread outs n code out hlines hconverses hconcludes hexits stdin text other decoded
      hother hhead
    obtain ⟨-, rfl⟩ := hexits.unique (exits_of_converses hlines hconverses hconcludes)
    exact exits_of_converses (v := { v with stdin, text, decoded }) hother hconverses
      (hconcludes.of_unread hhead)
  · rw [hv.exits_iff, hw.exits_iff, hprogram, hbits, hwords]

/-- A program that puts out the two words that it reads first, given three words: one with the arguments
and two on lines of their own, or all three on standard input. The third is never read, so its line need
not even be a list. -/
theorem run_shows_all_output_echo :
    ∃ v u w : Invocation, v.arguments = ["echo", "--input", "5"] ∧ v.text = "6\n7\n" ∧
      u.arguments = v.arguments ∧ u.text = "6\nno list" ∧
      w.arguments = ["echo", "--trace"] ∧ w.text = "5, 6\r\n7" ∧
      v.program = ⟨[3, 0, 4, 0, 3, 0, 4, 0, 99]⟩ ∧ v.IsPlain ∧ w.IsPlain ∧ v.words = w.words ∧
      v.words = [5, 6, 7] ∧ (∀ code out, v.Exits code out ↔ code = 0 ∧ out = "5\n6\n") ∧
      u.Exits 0 "5\n6\n" ∧ w.Exits 0 "5\n6\n" := by
  let v : Invocation :=
    { arguments := ["echo", "--input", "5"]
      files := fun _ => .ok (utf8 "3,0,4,0,3,0,4,0,99")
      stdin := utf8 "6\n7\n"
      options := { file := "echo", inputs := [5] }
      program := ⟨[3, 0, 4, 0, 3, 0, 4, 0, 99]⟩
      text := "6\n7\n"
      accepted := by decide +kernel
      loaded := by decide +kernel
      decoded := decodeText?_eq_some_iff.mpr rfl }
  let u : Invocation :=
    { v with
      stdin := utf8 "6\nno list"
      text := "6\nno list"
      decoded := decodeText?_eq_some_iff.mpr rfl }
  let w : Invocation :=
    { arguments := ["echo", "--trace"]
      files := fun _ => .ok (utf8 "3,0,4,0,3,0,4,0,99")
      stdin := utf8 "5, 6\r\n7"
      options := { file := "echo", trace := true }
      program := ⟨[3, 0, 4, 0, 3, 0, 4, 0, 99]⟩
      text := "5, 6\r\n7"
      accepted := by decide +kernel
      loaded := by decide +kernel
      decoded := decodeText?_eq_some_iff.mpr rfl }
  have hv : v.IsPlain := ⟨rfl, by decide +kernel, by decide +kernel⟩
  have hw : w.IsPlain := ⟨rfl, by decide +kernel, by decide +kernel⟩
  have hwords : v.words = [5, 6, 7] := by decide +kernel
  have hsame : v.words = w.words := hwords.trans (by decide +kernel)
  -- the machine waits after three steps, and has halted after three more
  let l : Machine := Machine.step^[3] v.machine
  let n : Machine := Machine.step^[3] (l.extend [6])
  have hfirst : v.machine.Settles [5] l :=
    ⟨3, rfl, by decide +kernel, by decide +kernel, Machine.step_step_of_isAtRest (by decide +kernel)⟩
  have hsecond : (l.extend [6]).Settles [6] n :=
    ⟨3, rfl, by decide +kernel, by decide +kernel, Machine.step_step_of_isAtRest (by decide +kernel)⟩
  have hlisted : wordsOf? false "6" = some [6] := by decide +kernel
  have hconverses : Converses false v.machine ["6"] [[5], [6]] n :=
    .feeds hfirst (by decide +kernel) hlisted (.rests hsecond)
  have hconcludes : Concludes false n ["7"] 0 := .halted (by decide +kernel)
  have hlines : v.lines = ["6"] ++ ["7"] := by decide +kernel
  obtain ⟨hiff, hunique, hunread, hsplit⟩ := run_shows_all_output v
  have hout : "5\n6\n" = decimals [[5], [6]].flatten := by decide +kernel
  have hexits : v.Exits 0 "5\n6\n" :=
    (hiff _ _).mpr ⟨["6"], ["7"], [[5], [6]], n, hlines, hconverses, hconcludes, hout⟩
  have hother : u.Exits 0 "5\n6\n" :=
    hunread hlines hconverses hconcludes hexits u.stdin u.text ["no list"] u.decoded
      (by decide +kernel) (Or.inl rfl)
  refine ⟨v, u, w, rfl, rfl, rfl, rfl, rfl, rfl, rfl, hv, hw, hsame, hwords, fun code out => ?_,
    hother, (hsplit w hv hw rfl rfl hsame _ _).mp hexits⟩
  constructor
  · exact fun h => hunique h hexits
  · rintro ⟨rfl, rfl⟩
    exact hexits

end Invocation

end Intcode.Command
