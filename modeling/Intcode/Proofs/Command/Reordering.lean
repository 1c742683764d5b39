import Intcode.Proofs.Command.Invocation

/-!
# The order of arguments

What groups of arguments say depends on their order in two ways only: the lists of words add up in the order
in which they are given, and so do the lines of text. All else may stand anywhere (`parse_eq_of_reorders`),
and the words of all lists are queued before those of all lines (`queue_ofOptions`). Groups may change places
in front of any other arguments, also of such as are refused: the command is refused before and after.
-/

namespace Intcode.Command.RunOptions

variable {arguments rest : List String} {e : ArgumentError} {groups groups' : List Group}

/-- The same groups in another order, though not among those that give lists, nor among those that give
lines. -/
structure Reorders (groups groups' : List Group) : Prop where
  perm : groups.Perm groups'
  lists : groups.filterMap Group.list? = groups'.filterMap Group.list?
  lines : groups.filterMap Group.line? = groups'.filterMap Group.line?

theorem after_eq_of_reorders (h : Reorders groups groups') (o : RunOptions) :
    o.after groups = o.after groups' := by
  simp only [after, wordsOf, h.lists, h.lines, h.perm.mem_iff]

/-- Groups can change places in front of any other arguments. What is refused stays refused, though the
complaint may be another one: of two files it is about the second. -/
theorem parse_eq_of_reorders (h : Reorders groups groups') (rest : List String) :
    (parse (written groups ++ rest)).toOption = (parse (written groups' ++ rest)).toOption := by
  have hfiles : (filesOf groups).Perm (filesOf groups') := h.perm.filterMap _
  rw [parse_written, parse_written, after_eq_of_reorders h]
  match filesOf groups, filesOf groups', hfiles, hfiles.length_eq with
  | [], [], _, _ => rfl
  | [_], [_], hsame, _ => rw [List.singleton_perm_singleton.mp hsame]
  | _ :: _ :: _, _ :: _ :: _, _, _ => rfl

/-- Arguments that are refused end the command with a complaint, whatever the files and standard input. -/
theorem execute_of_parse_eq_error (h : parse arguments = .error e) (fuel : Nat)
    (files : String → Except String (List UInt8)) (stdin : List UInt8) :
    execute fuel ("run" :: arguments) files stdin = some (.complaint .refused e.message) := by
  rw [execute, Request.parse_run_of_error h]

/-- The machine is given the words of all lists, then those of all lines. -/
theorem queue_ofOptions (g : Grouping) (program : Program) :
    (Session.ofOptions g.options program).machine.queue =
      wordsOf g.groups ++ (g.groups.filterMap Group.line?).flatMap Ascii.encodeLine := by
  rw [Session.ofOptions, Invocation.foldl_pushLine, Machine.extend_extend]
  rfl

/-- **Arguments of `run` are read group by group, in any order.** They are accepted if and only if they fall
into groups of which one names a file: a list of words behind `--input`, any text behind `--ascii`, a switch,
or an argument without two dashes in front. The options are then what the groups say: that file, the words of
all lists and the lines of text, each in order, and the switches that occur. Arguments fall into groups in one
way only. They are refused if something among them begins no group or if no file or a second one is named, and
then the command complains about the first of these and ends with code 1. Groups can be moved in front of
whatever follows them, if those that give lists stay in order and those that give lines do, and the machine
that comes of them has the words of all lists in its queue, and those of all lines behind. -/
theorem arguments_are_groups_in_any_order :
    (∀ arguments o, parse arguments = .ok o ↔
      ∃ g : Grouping, g.arguments = arguments ∧ g.options = o) ∧
    Function.Injective written ∧
    (∀ arguments e, parse arguments = .error e ↔ Refused arguments e) ∧
    (∀ arguments e, parse arguments = .error e → ∀ fuel files stdin, ∃ report,
      execute fuel ("run" :: arguments) files stdin = some report ∧
        report.verdict.code = 1 ∧ report.console = { err := e.message }) ∧
    (∀ groups groups' rest, Reorders groups groups' →
      (parse (written groups ++ rest)).toOption = (parse (written groups' ++ rest)).toOption) ∧
    ∀ (g : Grouping) content program, loadProgram g.file content = .ok program →
      Request.parse ("run" :: g.arguments) = .ok (.run g.options) ∧
      ∃ session, (Request.run g.options).start content = .converse session ∧
        session.machine.queue =
          wordsOf g.groups ++ (g.groups.filterMap Group.line?).flatMap Ascii.encodeLine := by
  refine ⟨fun _ _ => parse_eq_ok_iff, written_injective, fun _ _ => parse_eq_error_iff, ?_,
    fun _ _ rest h => parse_eq_of_reorders h rest, ?_⟩
  · intro arguments e h fuel files stdin
    exact ⟨_, execute_of_parse_eq_error h fuel files stdin, rfl, rfl⟩
  · intro g content program hload
    refine ⟨Request.parse_run_of_ok g.parse_arguments, .ofOptions g.options program, ?_,
      queue_ofOptions g program⟩
    have hfile : (Request.run g.options).file = g.file := rfl
    simp only [Request.start, hfile, hload]

/-- Two lists, two lines of which one looks like a switch, and a switch that is given twice, in two orders;
and a flag that comes last, without its value. -/
theorem arguments_are_groups_in_any_order_eleven :
    ∃ g g' : Grouping,
      g.arguments = ["prog", "--input", "1, -2", "--ascii", "--trace", "--input", "3", "--ascii", "ok",
        "--bits64", "--bits64"] ∧
      g'.arguments = ["--bits64", "--ascii", "--trace", "--input", "1, -2", "--ascii", "ok", "prog",
        "--bits64", "--input", "3"] ∧
      parse g.arguments =
        .ok { file := "prog", inputs := [1, -2, 3], lines := ["--trace", "ok"], bits64 := true } ∧
      Reorders g.groups g'.groups ∧ (parse g.arguments).toOption = (parse g'.arguments).toOption ∧
      loadProgram "prog" (.ok (utf8 "99")) = .ok ⟨[99]⟩ ∧
      (∃ session, (Request.run g'.options).start (.ok (utf8 "99")) = .converse session ∧
        session.machine.queue = [1, -2, 3, 45, 45, 116, 114, 97, 99, 101, 10, 111, 107, 10]) ∧
      parse ["--trace", "prog", "--input"] = .error (.missingValue "--input") ∧
      ∃ report, execute 0 ["run", "--trace", "prog", "--input"] (fun _ => .error "") [] = some report ∧
        report.verdict.code = 1 ∧ report.console.err = "error: --input requires a value\n" := by
  let pair : WordList := ⟨"1, -2", ⟨[1, -2]⟩, by decide +kernel⟩
  let three : WordList := ⟨"3", ⟨[3]⟩, by decide +kernel⟩
  let prog : Group := .file "prog" (by decide +kernel)
  let g : Grouping :=
    ⟨[prog, .input pair, .ascii "--trace", .input three, .ascii "ok", .switch .bits64,
      .switch .bits64], "prog", rfl⟩
  let g' : Grouping :=
    ⟨[.switch .bits64, .ascii "--trace", .input pair, .ascii "ok", prog, .switch .bits64,
      .input three], "prog", rfl⟩
  have hreorders : Reorders g.groups g'.groups := ⟨by decide +kernel, rfl, rfl⟩
  have hload : loadProgram "prog" (.ok (utf8 "99")) = .ok ⟨[99]⟩ := by decide +kernel
  obtain ⟨hok, -, herror, hcode, hreorder, hstart⟩ := arguments_are_groups_in_any_order
  have hsame := hreorder _ _ [] hreorders
  rw [List.append_nil, List.append_nil] at hsame
  obtain ⟨-, session, hsession, hqueue⟩ := hstart g' _ _ hload
  have hrefused : Refused (written [.switch .trace, prog] ++ ["--input"]) (.missingValue "--input") :=
    .breaks (by decide) (.value (.inl rfl))
  have hparse : parse ["--trace", "prog", "--input"] = .error (.missingValue "--input") :=
    (herror _ _).mpr hrefused
  obtain ⟨report, hreport, hreported, hconsole⟩ := hcode _ _ hparse 0 (fun _ => .error "") []
  refine ⟨g, g', rfl, rfl, (hok _ _).mpr ⟨g, rfl, by decide +kernel⟩, hreorders, hsame, hload,
    ⟨session, hsession, hqueue.trans (by decide +kernel)⟩, hparse, report, hreport, hreported, ?_⟩
  rw [hconsole]
  decide +kernel

end Intcode.Command.RunOptions
