import Mathlib.Data.List.Infix
import Intcode.Command.Options

/-!
# The groups of arguments

Arguments of `run` that say one thing stand next to each other: a flag with its value, a switch, or the
name of the program's file. The command accepts arguments that fall into such groups, if just one of the
groups names a file, and what it takes from them is said group by group (`parse_eq_ok_iff`). It refuses all
others for the first thing that is wrong with them (`parse_eq_error_iff`).

## Shape of the proof

A list of arguments begins with groups, and behind those there is nothing or something that begins no group
(`exists_written_append`). Reading goes through the groups (`scan_written`) and stops at what is behind them
(`Breaks.scan`), so every list is accepted or refused for a reason that can be told from the groups. They are
the only way to divide it, as a group ends where its first argument says (`written_injective`).
-/

namespace Intcode.Command

/-- The argument begins with two dashes. -/
def IsDashed (argument : String) : Prop :=
  ['-', '-'] <+: argument.toList

instance (argument : String) : Decidable (IsDashed argument) :=
  inferInstanceAs (Decidable (['-', '-'] <+: argument.toList))

theorem looksLikeFlag_iff {argument : String} : looksLikeFlag argument = true ↔ IsDashed argument := by
  rw [looksLikeFlag, IsDashed, beq_iff_eq, List.prefix_iff_eq_take, eq_comm]
  rfl

/-- A text that lists words. -/
structure WordList where
  text : String
  program : Program
  parses : Program.parse text = .ok program
  deriving DecidableEq

theorem WordList.text_injective : Function.Injective WordList.text := by
  rintro ⟨text, program, parses⟩ ⟨_, program', parses'⟩ rfl
  cases parses.symm.trans parses'
  rfl

theorem readWords_text (list : WordList) : readWords list.text = .ok list.program.words := by
  rw [readWords, list.parses]

namespace RunOptions

/-- What can be switched on. -/
inductive Switch where
  | asciiOutput
  | bits64
  | trace
  deriving DecidableEq

def Switch.flag : Switch → String
  | asciiOutput => "--ascii-output"
  | bits64 => "--bits64"
  | trace => "--trace"

/-- All flags. -/
def flagNames : List String :=
  ["--input", "--ascii", "--ascii-output", "--bits64", "--trace"]

/-- Arguments that say one thing. -/
inductive Group where
  | input (list : WordList)
  | ascii (line : String)
  | switch (switch : Switch)
  | file (name : String) (not_isDashed : ¬ IsDashed name)
  deriving DecidableEq

namespace Group

def arguments : Group → List String
  | input list => ["--input", list.text]
  | ascii line => ["--ascii", line]
  | switch s => [s.flag]
  | file name _ => [name]

def list? : Group → Option WordList
  | input list => some list
  | ascii _ | switch _ | file _ _ => none

def line? : Group → Option String
  | ascii line => some line
  | input _ | switch _ | file _ _ => none

def file? : Group → Option String
  | file name _ => some name
  | input _ | ascii _ | switch _ => none

end Group

/-- The arguments of groups, one behind the other. -/
def written (groups : List Group) : List String :=
  groups.flatMap Group.arguments

/-- The files that groups name. -/
def filesOf (groups : List Group) : List String :=
  groups.filterMap Group.file?

/-- The words of the lists that groups give. -/
def wordsOf (groups : List Group) : List Word :=
  (groups.filterMap Group.list?).flatMap fun list => list.program.words

/-- Groups of which one names a file. -/
structure Grouping where
  groups : List Group
  file : String
  filesOf_groups : filesOf groups = [file]

namespace Grouping

def arguments (g : Grouping) : List String :=
  written g.groups

/-- What the groups say together. -/
def options (g : Grouping) : RunOptions where
  file := g.file
  inputs := wordsOf g.groups
  lines := g.groups.filterMap Group.line?
  asciiOutput := decide (.switch .asciiOutput ∈ g.groups)
  bits64 := decide (.switch .bits64 ∈ g.groups)
  trace := decide (.switch .trace ∈ g.groups)

end Grouping

variable {arguments rest : List String} {e : ArgumentError} {groups : List Group} {o : RunOptions}
  {file : Option String} {name : String}

/-- Arguments that begin no group, and what is wrong with the first of them. -/
inductive Breaks : List String → ArgumentError → Prop
  | value {flag : String} : flag = "--input" ∨ flag = "--ascii" → Breaks [flag] (.missingValue flag)
  | list {text : String} {cause : LoadError} {rest : List String} :
      Program.parse text = .error cause → Breaks ("--input" :: text :: rest) (.invalidList cause)
  | flag {flag : String} {rest : List String} : IsDashed flag → flag ∉ flagNames →
      Breaks (flag :: rest) (.unknownFlag flag)

/-- Why arguments are not accepted: something begins no group, though no second file is named before it;
else a second file is named; else none is. -/
inductive Refused : List String → ArgumentError → Prop
  | breaks {groups : List Group} {rest : List String} {e : ArgumentError} :
      (filesOf groups).length ≤ 1 → Breaks rest e → Refused (written groups ++ rest) e
  | second {groups : List Group} {rest others : List String} {first second : String} :
      filesOf groups = first :: second :: others →
      Refused (written groups ++ rest) (.unexpected second)
  | noFile {groups : List Group} : filesOf groups = [] →
      Refused (written groups) (.missingFile .run)

/-! ## Dividing arguments -/

theorem isDashed_of_mem_flagNames {flag : String} (h : flag ∈ flagNames) : IsDashed flag :=
  have hall : ∀ flag ∈ flagNames, IsDashed flag := by decide +kernel
  hall flag h

theorem Switch.flag_mem (s : Switch) : s.flag ∈ flagNames := by
  cases s <;> decide

theorem Switch.flag_injective : Function.Injective Switch.flag := by
  rintro (_ | _ | _) (_ | _ | _) h <;> first | rfl | simp [flag] at h

theorem written_append (groups groups' : List Group) :
    written (groups ++ groups') = written groups ++ written groups' :=
  List.flatMap_append

theorem written_cons (g : Group) (groups : List Group) :
    written (g :: groups) = g.arguments ++ written groups :=
  List.flatMap_cons

theorem Group.arguments_ne_nil (g : Group) : g.arguments ≠ [] := by
  cases g <;> exact List.cons_ne_nil _ _

/-- Arguments begin with a group, or no group begins them. -/
theorem exists_arguments_append_or_breaks (argument : String) (rest : List String) :
    (∃ (g : Group) (behind : List String), argument :: rest = g.arguments ++ behind) ∨
      ∃ e, Breaks (argument :: rest) e := by
  by_cases hflag : argument ∈ flagNames
  · simp only [flagNames, List.mem_cons, List.not_mem_nil, or_false] at hflag
    rcases hflag with rfl | rfl | rfl | rfl | rfl
    · cases rest with
      | nil => exact .inr ⟨_, .value (.inl rfl)⟩
      | cons text rest =>
        cases hparse : Program.parse text with
        | error cause => exact .inr ⟨_, .list hparse⟩
        | ok program => exact .inl ⟨.input ⟨text, program, hparse⟩, rest, rfl⟩
    · cases rest with
      | nil => exact .inr ⟨_, .value (.inr rfl)⟩
      | cons line rest => exact .inl ⟨.ascii line, rest, rfl⟩
    · exact .inl ⟨.switch .asciiOutput, rest, rfl⟩
    · exact .inl ⟨.switch .bits64, rest, rfl⟩
    · exact .inl ⟨.switch .trace, rest, rfl⟩
  · by_cases hdashed : IsDashed argument
    · exact .inr ⟨_, .flag hdashed hflag⟩
    · exact .inl ⟨.file argument hdashed, rest, rfl⟩

/-- Every list of arguments begins with groups, behind which nothing is left or no group begins. -/
theorem exists_written_append (arguments : List String) :
    ∃ groups rest, arguments = written groups ++ rest ∧ (rest = [] ∨ ∃ e, Breaks rest e) := by
  match arguments with
  | [] => exact ⟨[], [], rfl, .inl rfl⟩
  | argument :: rest =>
    rcases exists_arguments_append_or_breaks argument rest with ⟨g, behind, h⟩ | hbreaks
    · obtain ⟨groups, rest', hbehind, hrest⟩ := exists_written_append behind
      exact ⟨g :: groups, rest', by rw [h, hbehind, written_cons, List.append_assoc], hrest⟩
    · exact ⟨[], argument :: rest, rfl, .inr hbreaks⟩
termination_by arguments.length
decreasing_by
  -- a group takes at least one argument
  rw [h, List.length_append]
  exact Nat.lt_add_of_pos_left (List.length_pos_iff.mpr g.arguments_ne_nil)

theorem ne_of_not_isDashed {flag : String} (h : ¬ IsDashed name) (hflag : flag ∈ flagNames) :
    flag ≠ name := by
  rintro rfl
  exact h (isDashed_of_mem_flagNames hflag)

theorem Switch.flag_ne (s : Switch) : s.flag ≠ "--input" ∧ s.flag ≠ "--ascii" := by
  cases s <;> decide

/-- A group ends where its first argument says. -/
theorem Group.eq_of_arguments_append_eq {g g' : Group} {rest rest' : List String}
    (h : g.arguments ++ rest = g'.arguments ++ rest') : g = g' ∧ rest = rest' := by
  cases g with
  | input list =>
    cases g' with
    | input list' =>
      simp only [arguments, List.cons_append, List.nil_append, List.cons.injEq, true_and] at h
      exact ⟨congrArg input (WordList.text_injective h.1), h.2⟩
    | ascii => simp [arguments] at h
    | switch s => exact absurd (List.cons.inj h).1.symm s.flag_ne.1
    | file name hname => exact absurd (List.cons.inj h).1 (ne_of_not_isDashed hname (by decide))
  | ascii line =>
    cases g' with
    | input => simp [arguments] at h
    | ascii line' =>
      simp only [arguments, List.cons_append, List.nil_append, List.cons.injEq, true_and] at h
      exact ⟨congrArg ascii h.1, h.2⟩
    | switch s => exact absurd (List.cons.inj h).1.symm s.flag_ne.2
    | file name hname => exact absurd (List.cons.inj h).1 (ne_of_not_isDashed hname (by decide))
  | switch s =>
    cases g' with
    | input => exact absurd (List.cons.inj h).1 s.flag_ne.1
    | ascii => exact absurd (List.cons.inj h).1 s.flag_ne.2
    | switch s' =>
      obtain ⟨hflag, hrest⟩ := List.cons.inj h
      exact ⟨congrArg switch (Switch.flag_injective hflag), hrest⟩
    | file name hname => exact absurd (List.cons.inj h).1 (ne_of_not_isDashed hname s.flag_mem)
  | file name hname =>
    cases g' with
    | input => exact absurd (List.cons.inj h).1.symm (ne_of_not_isDashed hname (by decide))
    | ascii => exact absurd (List.cons.inj h).1.symm (ne_of_not_isDashed hname (by decide))
    | switch s => exact absurd (List.cons.inj h).1.symm (ne_of_not_isDashed hname s.flag_mem)
    | file name' hname' =>
      obtain ⟨rfl, hrest⟩ := List.cons.inj h
      exact ⟨rfl, hrest⟩

/-- Arguments can be divided into groups in one way only. -/
theorem written_injective : Function.Injective written := by
  intro groups groups' h
  induction groups generalizing groups' with
  | nil =>
    cases groups' with
    | nil => rfl
    | cons g' groups' =>
      rw [written_cons] at h
      exact absurd (List.append_eq_nil_iff.mp h.symm).1 g'.arguments_ne_nil
  | cons g groups ih =>
    cases groups' with
    | nil =>
      rw [written_cons] at h
      exact absurd (List.append_eq_nil_iff.mp h).1 g.arguments_ne_nil
    | cons g' groups' =>
      rw [written_cons, written_cons] at h
      obtain ⟨rfl, hrest⟩ := Group.eq_of_arguments_append_eq h
      rw [ih hrest]

/-! ## Reading groups -/

/-- What a group does to the options. -/
def Group.add : Group → RunOptions → RunOptions
  | .input list, o => { o with inputs := o.inputs ++ list.program.words }
  | .ascii line, o => { o with lines := o.lines ++ [line] }
  | .switch .asciiOutput, o => { o with asciiOutput := true }
  | .switch .bits64, o => { o with bits64 := true }
  | .switch .trace, o => { o with trace := true }
  | .file _ _, o => o

/-- The options once groups have been read. -/
def after (o : RunOptions) (groups : List Group) : RunOptions :=
  { o with
    inputs := o.inputs ++ wordsOf groups
    lines := o.lines ++ groups.filterMap Group.line?
    asciiOutput := o.asciiOutput || decide (.switch .asciiOutput ∈ groups)
    bits64 := o.bits64 || decide (.switch .bits64 ∈ groups)
    trace := o.trace || decide (.switch .trace ∈ groups) }

theorem after_nil (o : RunOptions) : o.after [] = o := by
  simp [after, wordsOf]

theorem after_cons (o : RunOptions) (g : Group) (groups : List Group) :
    o.after (g :: groups) = (g.add o).after groups := by
  cases g with
  | input | ascii | file =>
    simp [after, wordsOf, Group.add, Group.list?, Group.line?, List.filterMap_cons]
  | switch s =>
    cases s <;> simp [after, wordsOf, Group.add, Group.list?, Group.line?, List.filterMap_cons]

theorem valued?_input :
    flags.valued? "--input" = some fun text o =>
      (readWords text).map fun words => { o with inputs := o.inputs ++ words } :=
  rfl

theorem valued?_flag (s : Switch) : flags.valued? s.flag = none := by
  cases s <;> rfl

theorem switch?_flag (s : Switch) : flags.switch? s.flag = some (Group.switch s).add := by
  cases s <;> rfl

theorem valued?_of_not_mem (h : name ∉ flagNames) : flags.valued? name = none := by
  simp only [flagNames, List.mem_cons, not_or] at h
  simp only [flags, if_neg h.1, if_neg h.2.1]

/-- An argument that is no flag of the command is wrong if it is dashed, and else names a file. -/
theorem scan_of_not_mem (h : name ∉ flagNames) (file : Option String) (o : RunOptions)
    (rest : List String) :
    flags.scan file o (name :: rest) =
      if looksLikeFlag name then .error (.unknownFlag name)
      else if file.isSome then .error (.unexpected name)
      else flags.scan (some name) o rest := by
  have hswitch : flags.switch? name = none := by
    simp only [flagNames, List.mem_cons, not_or] at h
    obtain ⟨-, -, houtput, hbits, htrace, -⟩ := h
    simp only [flags, if_neg houtput, if_neg hbits, if_neg htrace]
  simp only [Flags.scan, valued?_of_not_mem h, hswitch]

/-- A group that names no file is read as a whole. -/
theorem scan_group {g : Group} (hfile : g.file? = none) (file : Option String) (o : RunOptions)
    (rest : List String) :
    flags.scan file o (g.arguments ++ rest) = flags.scan file (g.add o) rest := by
  cases g with
  | input list =>
    simp only [Group.arguments, List.cons_append, List.nil_append, Flags.scan, valued?_input,
      readWords_text, Except.map]
    rfl
  | ascii line => rfl
  | switch s =>
    simp only [Group.arguments, List.cons_append, List.nil_append, Flags.scan, valued?_flag, switch?_flag]
  | file name hname => cases hfile

/-- The first file is taken down, and a second one is too many. -/
theorem scan_name (h : ¬ IsDashed name) (file : Option String) (o : RunOptions) (rest : List String) :
    flags.scan file o (name :: rest) =
      match file with
      | none => flags.scan (some name) o rest
      | some _ => .error (.unexpected name) := by
  have hname : name ∉ flagNames := mt isDashed_of_mem_flagNames h
  rw [scan_of_not_mem hname, if_neg (mt looksLikeFlag_iff.mp h)]
  cases file <;> rfl

/-- The one file among those that are named, or the second as a complaint. -/
def fileAmong : List String → Except ArgumentError (Option String)
  | [] => .ok none
  | [name] => .ok (some name)
  | _ :: second :: _ => .error (.unexpected second)

/-- Reading goes through groups up to the second file. -/
theorem scan_written (groups : List Group) (file : Option String) (o : RunOptions)
    (rest : List String) :
    flags.scan file o (written groups ++ rest) =
      (fileAmong (file.toList ++ filesOf groups)).bind
        fun file => flags.scan file (o.after groups) rest := by
  induction groups generalizing file o with
  | nil =>
    rw [after_nil]
    cases file <;> rfl
  | cons g groups ih =>
    rw [written_cons, List.append_assoc, after_cons]
    cases hfile : g.file? with
    | none =>
      have hfiles : filesOf (g :: groups) = filesOf groups := List.filterMap_cons_none hfile
      rw [scan_group hfile, ih, hfiles]
    | some name =>
      cases g with
      | input | ascii | switch => cases hfile
      | file _ hname =>
        cases hfile
        rw [Group.arguments, List.singleton_append, scan_name hname]
        -- a second file ends the reading, whatever is behind it
        cases file with
        | none => exact ih (some name) o
        | some first => rfl

/-- Reading stops where no group begins. -/
theorem Breaks.scan (h : Breaks rest e) (file : Option String) (o : RunOptions) :
    flags.scan file o rest = .error e := by
  cases h with
  | value hflag => rcases hflag with rfl | rfl <;> rfl
  | list hparse => simp only [Flags.scan, valued?_input, readWords, hparse, Except.map]
  | flag hdashed hflag => rw [scan_of_not_mem hflag, if_pos (looksLikeFlag_iff.mpr hdashed)]

/-! ## Accepting and refusing -/

/-- Arguments in front of others are read first, and what they name and say is kept. -/
theorem parse_written (groups : List Group) (rest : List String) :
    parse (written groups ++ rest) =
      (fileAmong (filesOf groups)).bind fun file =>
        match flags.scan file (after {} groups) rest with
        | .error e => .error e
        | .ok (none, _) => .error (.missingFile .run)
        | .ok (some file, options) => .ok { options with file } := by
  rw [parse, scan_written, Option.toList_none, List.nil_append]
  cases fileAmong (filesOf groups) <;> rfl

/-- What a grouping says is what the arguments are read as. -/
theorem Grouping.parse_arguments (g : Grouping) : parse g.arguments = .ok g.options := by
  have hparse := parse_written g.groups []
  rw [List.append_nil, g.filesOf_groups] at hparse
  rw [arguments, hparse]
  simp [fileAmong, Except.bind, Flags.scan, after, options]

/-- What the rule refuses is refused for the same reason. -/
theorem Refused.parse (h : Refused arguments e) : parse arguments = .error e := by
  cases h with
  | breaks hfiles hbreaks =>
    rw [parse_written]
    simp only [hbreaks.scan]
    match filesOf _, hfiles with
    | [], _ => rfl
    | [_], _ => rfl
  | second hfiles =>
    rw [parse_written, hfiles]
    rfl
  | noFile hfiles =>
    rw [← List.append_nil (written _), parse_written, hfiles]
    rfl

/-- All arguments are accepted or refused. -/
theorem exists_grouping_or_refused (arguments : List String) :
    (∃ g : Grouping, g.arguments = arguments) ∨ ∃ e, Refused arguments e := by
  obtain ⟨groups, rest, rfl, hrest⟩ := exists_written_append arguments
  rcases hfiles : filesOf groups with _ | ⟨file, _ | ⟨second, others⟩⟩
  · rcases hrest with rfl | ⟨e, hbreaks⟩
    · rw [List.append_nil]
      exact .inr ⟨_, .noFile hfiles⟩
    · exact .inr ⟨e, .breaks (by simp [hfiles]) hbreaks⟩
  · rcases hrest with rfl | ⟨e, hbreaks⟩
    · exact .inl ⟨⟨groups, file, hfiles⟩, (List.append_nil _).symm⟩
    · exact .inr ⟨e, .breaks (by simp [hfiles]) hbreaks⟩
  · exact .inr ⟨_, .second hfiles⟩

theorem parse_eq_ok_iff :
    parse arguments = .ok o ↔ ∃ g : Grouping, g.arguments = arguments ∧ g.options = o := by
  constructor
  · intro h
    rcases exists_grouping_or_refused arguments with ⟨g, rfl⟩ | ⟨e, hrefused⟩
    · exact ⟨g, rfl, Except.ok.inj (g.parse_arguments.symm.trans h)⟩
    · cases hrefused.parse.symm.trans h
  · rintro ⟨g, rfl, rfl⟩
    exact g.parse_arguments

theorem parse_eq_error_iff : parse arguments = .error e ↔ Refused arguments e := by
  constructor
  · intro h
    rcases exists_grouping_or_refused arguments with ⟨g, rfl⟩ | ⟨e', hrefused⟩
    · cases g.parse_arguments.symm.trans h
    · cases hrefused.parse.symm.trans h
      exact hrefused
  · exact Refused.parse

end RunOptions

end Intcode.Command
