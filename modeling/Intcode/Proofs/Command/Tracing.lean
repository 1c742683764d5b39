import Intcode.Proofs.Command.Arguments
import Intcode.Proofs.Command.Lines
import Intcode.Proofs.Command.Session
import Intcode.Proofs.Machine.Watching

/-!
# Tracing

A session that traces shows each instruction on standard error before it is executed, and does nothing
else that it would not do without. So what a session does until something happens
(`Session.advance`) is the run of its machine, whether it traces or not, and tracing adds one line for
each instruction that is executed (`Session.iterate_stepped`). And since nothing depends on what was
printed on standard error, the flag `--trace` changes neither the exit code nor standard output
(`execute_insert_trace`).

The flag may stand anywhere among the arguments, except where it would be the value of another flag.
-/

namespace Intcode.Command

/-! ## The flag -/

/-- Whether the last of these arguments is a flag that waits for its value. -/
def endsOpen (arguments : List String) : Bool :=
  arguments.foldl (fun waits argument => !waits && (RunOptions.flags.valued? argument).isSome) false

theorem endsOpen_cons_of_none {argument : String} (h : RunOptions.flags.valued? argument = none)
    (rest : List String) : endsOpen (argument :: rest) = endsOpen rest := by
  simp [endsOpen, h]

theorem endsOpen_cons_cons_of_isSome {argument : String}
    (h : (RunOptions.flags.valued? argument).isSome = true) (value : String) (rest : List String) :
    endsOpen (argument :: value :: rest) = endsOpen rest := by
  simp [endsOpen, h]

namespace RunOptions

/-- Groups leave no flag that waits for its value. -/
theorem endsOpen_written_append (groups : List Group) (rest : List String) :
    endsOpen (written groups ++ rest) = endsOpen rest := by
  induction groups with
  | nil => rfl
  | cons g groups ih =>
    rw [written_cons, List.append_assoc, ← ih]
    cases g with
    | input | ascii => exact endsOpen_cons_cons_of_isSome rfl _ _
    | switch s => exact endsOpen_cons_of_none (valued?_flag s) _
    | file name hname =>
      have hplain : name ∉ flagNames := mt isDashed_of_mem_flagNames hname
      exact endsOpen_cons_of_none (valued?_of_not_mem hplain) _

/-- What begins no group begins none with more behind it either, unless it waits for its value. -/
theorem Breaks.append {rest : List String} {e : ArgumentError} (h : Breaks rest e)
    (hclosed : endsOpen rest = false) (behind : List String) : Breaks (rest ++ behind) e := by
  cases h with
  | value hflag => rcases hflag with rfl | rfl <;> cases hclosed
  | list hparse => exact .list hparse
  | flag hdashed hflag => exact .flag hdashed hflag

/-- The options with the trace turned on. -/
def traced (o : RunOptions) : RunOptions :=
  { o with trace := true }

theorem after_insert_trace (o : RunOptions) (groups groups' : List Group) :
    o.after (groups ++ .switch .trace :: groups') = (o.after (groups ++ groups')).traced := by
  simp [after, traced, wordsOf, Group.list?, Group.line?, List.filterMap_cons]

/-- The flag does the same wherever it stands, if it is not taken as a value. -/
theorem parse_insert_trace {before : List String} (after : List String)
    (h : endsOpen before = false) :
    parse (before ++ "--trace" :: after) = (parse (before ++ after)).map traced := by
  obtain ⟨groups, rest, rfl, hrest⟩ := exists_written_append before
  rw [endsOpen_written_append] at h
  rcases hrest with rfl | ⟨e, hbreaks⟩
  · -- the flag is a group between others
    obtain ⟨groups', rest', rfl, hrest'⟩ := exists_written_append after
    have hwith : written groups ++ [] ++ "--trace" :: (written groups' ++ rest') =
        written (groups ++ .switch .trace :: groups') ++ rest' := by
      rw [written_append, written_cons, List.append_nil, List.append_assoc]
      rfl
    have hwithout : written groups ++ [] ++ (written groups' ++ rest') =
        written (groups ++ groups') ++ rest' := by
      rw [written_append, List.append_nil, List.append_assoc]
    have hfiles : filesOf (groups ++ .switch .trace :: groups') = filesOf (groups ++ groups') := by
      simp [filesOf, Group.file?, List.filterMap_cons]
    rw [hwith, hwithout, parse_written, parse_written, hfiles, after_insert_trace]
    rcases hrest' with rfl | ⟨e, hbreaks⟩
    · rcases fileAmong (filesOf (groups ++ groups')) with e | (_ | file) <;> rfl
    · simp only [hbreaks.scan]
      cases fileAmong (filesOf (groups ++ groups')) <;> rfl
  · -- it is not reached
    rw [List.append_assoc, List.append_assoc, parse_written, parse_written]
    simp only [(hbreaks.append h _).scan]
    cases fileAmong (filesOf groups) <;> rfl

end RunOptions

/-! ## Standard error makes no difference -/

namespace Session

variable {s t : Session}

/-- The session without a trace and with nothing printed on standard error. -/
def quiet (s : Session) : Session :=
  { s with trace := false, console.err := "" }

theorem quiet_stepped (s : Session) : s.stepped.quiet = s.quiet.stepped.quiet := by
  obtain ⟨err, h⟩ := s.showNext_eq
  rw [stepped, h]
  rfl

theorem quiet_flush (s : Session) : s.flush.quiet = s.quiet.flush.quiet := by
  rw [flush, flush, show s.quiet.text = s.text from rfl]
  split <;> rfl

theorem quiet_emit (s : Session) (word : Word) : (s.emit word).quiet = (s.quiet.emit word).quiet := by
  rw [emit, emit, show s.quiet.asciiOutput = s.asciiOutput from rfl]
  split <;> rfl

theorem quiet_takeOutput (s : Session) : s.takeOutput.quiet = s.quiet.takeOutput.quiet := by
  rw [takeOutput, takeOutput, show s.quiet.machine = s.machine from rfl]
  rcases s.machine.takeOutput with ⟨_ | word, machine⟩
  · rfl
  · exact quiet_emit { s with machine } word

/-- A tick does the same whatever there is on standard error, apart from what it adds there. -/
theorem quiet_tick (s : Session) : s.tick.quiet = s.quiet.tick.quiet := by
  cases hrest : s.machine.step.isAtRest with
  | true =>
    obtain ⟨err, h⟩ := tick_of_isAtRest hrest
    obtain ⟨err', h'⟩ := tick_of_isAtRest (s := s.quiet) hrest
    rw [h, h']
    show s.stepped.flush.quiet = s.quiet.stepped.flush.quiet
    rw [quiet_flush, quiet_stepped, ← quiet_flush]
  | false =>
    cases hs : s.machine.step.status with
    | running => rw [tick_of_running hs, tick_of_running (s := s.quiet) hs, quiet_stepped]
    | output =>
      rw [tick_of_output hs, tick_of_output (s := s.quiet) hs, quiet_takeOutput, quiet_stepped,
        ← quiet_takeOutput]
    | awaitingInput | halted | faulted =>
      rw [Machine.isAtRest, hs] at hrest
      cases hrest

/-- So does a line of input. -/
theorem quiet_feed (s : Session) (line : List UInt8) :
    (s.feed line).map quiet = (s.quiet.feed line).map quiet := by
  rw [feed, feed, show s.quiet.asciiOutput = s.asciiOutput from rfl]
  cases decodeText? line with
  | none => rfl
  | some line =>
    simp only
    split
    · rfl
    · cases Program.parse line <;> rfl

/-- The exit code and standard output of a session do not depend on whether it traces. -/
theorem play_eq_play_quiet (s : Session) (fuel : Nat) (lines : List (List UInt8)) :
    ((s.play fuel lines).map fun r => (r.verdict, r.console.out)) =
      (s.quiet.play fuel lines).map fun r => (r.verdict, r.console.out) := by
  induction fuel generalizing s lines with
  | zero => rfl
  | succ fuel ih =>
    -- sessions that differ in nothing but tracing end alike, each as their common quiet session does
    have hagree {s t : Session} (h : s.quiet = t.quiet) (lines : List (List UInt8)) :
        ((s.play fuel lines).map fun r => (r.verdict, r.console.out)) =
          (t.play fuel lines).map fun r => (r.verdict, r.console.out) := by
      rw [ih s, h, ← ih t]
    have htick := s.quiet_tick
    have hmachine : s.quiet.tick.machine = s.tick.machine :=
      (congrArg Session.machine htick).symm
    have hout : s.quiet.tick.console.out = s.tick.console.out :=
      (congrArg (fun s => s.console.out) htick).symm
    rw [play_succ, play_succ, hmachine]
    cases s.tick.machine.status with
    | running | output => exact hagree htick lines
    | halted | faulted => simp only [Option.map_some, finish, hout]
    | awaitingInput =>
      cases lines with
      | nil => simp only [Option.map_some, finish, complain, Console.complain, hout]
      | cons line rest =>
        have hfeed : (s.tick.feed line).map quiet = (s.quiet.tick.feed line).map quiet := by
          rw [quiet_feed, htick, ← quiet_feed]
        rcases hs : s.tick.feed line with message | next <;>
          rcases ht : s.quiet.tick.feed line with message' | next' <;> rw [hs, ht] at hfeed
        case error.error => simp only [hs, ht, Option.map_some, finish, complain, Console.complain, hout]
        case error.ok | ok.error => cases hfeed
        case ok.ok =>
          simp only [hs, ht]
          exact hagree (Except.ok.inj hfeed) rest

/-! ## Advancing -/

/-- What tracing tells of machines that are about to execute an instruction. -/
def told (trace : Bool) (machines : List Machine) : String :=
  if trace then String.join (machines.filterMap Machine.traceLine?) else ""

theorem told_append (trace : Bool) (before after : List Machine) :
    told trace (before ++ after) = told trace before ++ told trace after := by
  cases trace with
  | false => exact String.empty_append.symm
  | true =>
    show String.join _ = String.join _ ++ String.join _
    rw [List.filterMap_append, String.join_append]

theorem stepped_eq (s : Session) :
    s.stepped = { s with
      machine := s.machine.step, console.err := s.console.err ++ told s.trace [s.machine] } := by
  rw [stepped, showNext, told]
  cases htrace : s.trace with
  | false => simp [htrace]
  | true =>
    cases h : s.machine.traceLine? with
    | none => simp [htrace, h]
    | some line => simp [htrace, h, complain, Console.complain, String.join]

/-- After some steps, one line has been added for each instruction that was shown. -/
theorem iterate_stepped (k : Nat) (s : Session) :
    stepped^[k] s = { s with
      machine := Machine.step^[k] s.machine
      console.err := s.console.err ++
        told s.trace ((List.range k).map fun j => Machine.step^[j] s.machine) } := by
  induction k with
  | zero =>
    have hnothing : told s.trace [] = "" := by
      rw [told]
      split <;> rfl
    simp [hnothing]
  | succ k ih =>
    rw [Function.iterate_succ_apply', ih, stepped_eq, Function.iterate_succ_apply', List.range_succ,
      List.map_append, told_append, ← String.append_assoc]
    rfl

/-- Executes until something happens, and shows the instructions if they are to be shown. -/
def advance : Nat → Session → Option Session
  | 0, _ => none
  | fuel + 1, s =>
    if s.stepped.machine.status = .running then advance fuel s.stepped else some s.stepped

/-- A session that has advanced is one whose tick has only to print what came of it. -/
theorem play_of_advance {fuel : Nat} (h : s.advance fuel = some t) :
    ∃ k last, last.stepped = t ∧
      ∀ bound lines, s.play (bound + k) lines = play bound last lines := by
  induction fuel generalizing s with
  | zero => cases h
  | succ fuel ih =>
    rw [advance] at h
    split at h
    · next hrunning =>
      obtain ⟨k, last, hlast, hplay⟩ := ih h
      have htick : s.tick = s.stepped := tick_of_running (s.machine_stepped ▸ hrunning)
      have hmoving : s.tick.machine.isAtRest = false := by
        rw [htick, Machine.isAtRest, hrunning]
      refine ⟨k + 1, last, hlast, fun bound lines => ?_⟩
      rw [← Nat.add_assoc, play_succ_of_not_isAtRest hmoving, htick, hplay]
    · cases h
      exact ⟨0, s, rfl, fun _ _ => rfl⟩

/-- To advance is to let the machine run. -/
theorem map_machine_advance (fuel : Nat) (s : Session) :
    (s.advance fuel).map machine = s.machine.run fuel := by
  induction fuel generalizing s with
  | zero => rfl
  | succ fuel ih =>
    rw [advance, Machine.run_succ, machine_stepped]
    split
    · rw [ih, machine_stepped]
    · exact congrArg some s.machine_stepped

/-- And all but the last step leave the machine running. -/
theorem exists_iterate_of_advance {fuel : Nat} (h : s.advance fuel = some t) :
    ∃ k, t = stepped^[k + 1] s ∧ ∀ j < k, (Machine.step^[j + 1] s.machine).status = .running := by
  induction fuel generalizing s with
  | zero => cases h
  | succ fuel ih =>
    rw [advance] at h
    split at h
    · next hrunning =>
      rw [machine_stepped] at hrunning
      obtain ⟨k, rfl, hbefore⟩ := ih h
      refine ⟨k + 1, rfl, fun j hj => ?_⟩
      cases j with
      | zero => exact hrunning
      | succ j =>
        have hlater := hbefore j (Nat.lt_of_succ_lt_succ hj)
        rwa [machine_stepped] at hlater
    · cases h
      exact ⟨0, rfl, fun j hj => absurd hj (Nat.not_lt_zero j)⟩

end Session

/-! ## The command -/

/-- The flag changes neither the exit code nor standard output. -/
theorem execute_insert_trace (fuel : Nat) {before : List String} (after : List String)
    (files : String → Except String (List UInt8)) (stdin : List UInt8)
    (h : endsOpen before = false) :
    ((execute fuel ("run" :: before ++ "--trace" :: after) files stdin).map
        fun r => (r.verdict, r.console.out)) =
      (execute fuel ("run" :: before ++ after) files stdin).map
        fun r => (r.verdict, r.console.out) := by
  have hinsert := RunOptions.parse_insert_trace after h
  rw [execute, execute, List.cons_append, List.cons_append]
  cases hparse : RunOptions.parse (before ++ after) with
  | error e =>
    rw [hparse] at hinsert
    rw [Request.parse_run_of_error hparse, Request.parse_run_of_error hinsert]
  | ok options =>
    rw [hparse] at hinsert
    rw [Request.parse_run_of_ok hparse, Request.parse_run_of_ok hinsert]
    show Option.map _ (((Request.run options.traced).start (files options.file)).perform fuel stdin) =
      Option.map _ (((Request.run options).start (files options.file)).perform fuel stdin)
    rw [Request.start, Request.start, show (Request.run options.traced).file = options.file from rfl,
      show (Request.run options).file = options.file from rfl]
    cases loadProgram options.file (files options.file) with
    | error message => rfl
    | ok program =>
      have hquiet : (Session.ofOptions options.traced program).quiet =
          (Session.ofOptions options program).quiet := rfl
      show Option.map _ ((Session.ofOptions options.traced program).play fuel (inputLines stdin)) =
        Option.map _ ((Session.ofOptions options program).play fuel (inputLines stdin))
      rw [Session.play_eq_play_quiet, hquiet, ← Session.play_eq_play_quiet]

/-- **Tracing is faithful and harmless.** Take a machine that has neither halted nor faulted and of which
no negative address is touched. No instruction is shown exactly if the next step faults because there is
none to be read or decoded; and an instruction that is shown is the one that the step performs, with the
operands that it performs it with, whatever comes of it. A session with such a machine advances as the
machine runs, traced or not, and goes on from there: it comes to the same machine, and if it traces, it
has printed one line for each instruction that was shown on the way, with the instruction pointer and the
relative base as they were before it was executed. And the command `run` with `--trace` anywhere among its
arguments, if not as the value of a flag, ends with the same exit code and the same standard output as
without. -/
theorem tracing_is_faithful_and_harmless :
    (∀ m : Machine, m.isOver = false → m.memory.IsLegal →
      (∀ (σ : Type) (ask : σ → Option Word × σ) (s : σ), m.currentInstruction? = none ↔
        ∃ fault, (m.stepWith ask s).1.status = .faulted fault ∧ fault.isOfFetch = true) ∧
      (∀ text, m.currentInstruction? = some text →
        m.traceLine? = some (Text.alignRight 6 (Word.text m.ip) ++ "  " ++ text ++
          "  (rb " ++ Word.text m.base ++ ")\n") ∧
        ∃ i, m.decoded = .ok i ∧ text = i.render (m.operands i) ∧
          ∀ (σ : Type) (ask : σ → Option Word × σ) (s : σ),
            m.stepWith ask s = m.performed ask s i (m.operands i))) ∧
    (∀ (s : Session) (fuel : Nat), s.machine.isOver = false → s.machine.memory.IsLegal →
      (s.machine.run fuel = none → s.advance fuel = none) ∧
      (∀ n, s.machine.run fuel = some n →
        ∃ k, n = Machine.step^[k + 1] s.machine ∧
          (∀ j ≤ k, (Machine.step^[j] s.machine).isOver = false ∧
            (Machine.step^[j] s.machine).memory.IsLegal) ∧
          s.advance fuel = some { s with
            machine := n
            console.err := s.console.err ++
              if s.trace then
                String.join ((List.range (k + 1)).filterMap fun j =>
                  (Machine.step^[j] s.machine).traceLine?)
              else "" }) ∧
      ∀ t, s.advance fuel = some t →
        ∃ k last, last.stepped = t ∧
          ∀ bound lines, s.play (bound + k) lines = Session.play bound last lines) ∧
    ∀ (fuel : Nat) (before after : List String) (files : String → Except String (List UInt8))
      (stdin : List UInt8), endsOpen before = false →
        ((execute fuel ("run" :: before ++ "--trace" :: after) files stdin).map
            fun r => (r.verdict, r.console.out)) =
          (execute fuel ("run" :: before ++ after) files stdin).map
            fun r => (r.verdict, r.console.out) := by
  refine ⟨fun m hover hlegal => ⟨fun σ ask s => ?_, fun text htext => ⟨?_, ?_⟩⟩,
    fun s fuel hover hlegal => ⟨fun hnone => ?_, fun n hrun => ?_, fun t => Session.play_of_advance⟩,
    fun fuel before after files stdin h => execute_insert_trace fuel after files stdin h⟩
  · exact Machine.currentInstruction?_eq_none_iff hover hlegal ask s
  · rw [Machine.traceLine?, htext]
    rfl
  · exact Machine.stepWith_of_currentInstruction? hover hlegal htext
  · rw [← s.map_machine_advance] at hnone
    exact Option.map_eq_none_iff.mp hnone
  · rw [← s.map_machine_advance] at hrun
    obtain ⟨t, ht, rfl⟩ := Option.map_eq_some_iff.mp hrun
    obtain ⟨k, rfl, hrunning⟩ := Session.exists_iterate_of_advance ht
    rw [ht, Session.iterate_stepped]
    refine ⟨k, rfl, fun j hj => ⟨?_, ?_⟩, ?_⟩
    · cases j with
      | zero => exact hover
      | succ j => rw [Machine.isOver, hrunning j hj]
    · exact Function.Iterate.rec (fun m : Machine => m.memory.IsLegal) hlegal
        (fun _ h => Machine.isLegal_stepWith Machine.noSource () h) j
    · rw [Session.told, List.filterMap_map]
      rfl

/-- An instruction that writes over itself is shown as it was, and one that faults is shown as well. -/
theorem tracing_is_faithful_and_harmless_rewriting :
    let program : Program := ⟨[1101, 7, 8, 0, 4, -1]⟩
    let m := Machine.ofProgram program {}
    let s : Session :=
      { machine := m, asciiOutput := false, trace := true, text := #[], console := {} }
    let files : String → Except String (List UInt8) := fun _ => .ok (utf8 "1101,7,8,0,4,-1")
    m.isOver = false ∧ m.memory.IsLegal ∧ m.currentInstruction? = some "ADD 7, 8, [0]" ∧
      m.traceLine? = some "     0  ADD 7, 8, [0]  (rb 0)\n" ∧ m.step.memory.get 0 = 15 ∧
      (∃ t, s.advance 2 = some t ∧ t.machine.status = .faulted ⟨.negativeAddress (-1), 4⟩ ∧
        t.console.err = "     0  ADD 7, 8, [0]  (rb 0)\n     4  OUT [-1]  (rb 0)\n") ∧
      endsOpen ["p"] = false ∧
      (execute 2 ["run", "p", "--trace"] files []).map (fun r => (r.verdict, r.console.out)) =
        some (.faulted, "") := by
  intro program m s files
  have hover : m.isOver = false := rfl
  have hlegal : m.memory.IsLegal := Memory.isLegal_ofProgram program
  have hshown : m.currentInstruction? = some "ADD 7, 8, [0]" := by decide +kernel
  have hopen : endsOpen ["p"] = false := by decide +kernel
  obtain ⟨hfaithful, hadvance, hflag⟩ := tracing_is_faithful_and_harmless
  obtain ⟨-, hlines⟩ := hfaithful m hover hlegal
  obtain ⟨-, hruns, -⟩ := hadvance s 2 hover hlegal
  have hrun : m.run 2 = some (Machine.step^[2] m) := by
    rw [Machine.run_succ, if_pos (by decide +kernel), Machine.run_succ, if_neg (by decide +kernel)]
    rfl
  obtain ⟨k, hlast, hbefore, ht⟩ := hruns (Machine.step^[2] m) hrun
  have hsecond : (Machine.step^[2] m).isOver = true := by decide +kernel
  -- the second step is the one that faults
  obtain rfl : k = 1 := by
    rcases k with _ | _ | k
    · have hfirst : (Machine.step^[0 + 1] m).isOver = false := by decide +kernel
      cases (hlast ▸ hsecond).symm.trans hfirst
    · rfl
    · cases hsecond.symm.trans (hbefore 2 (Nat.le_add_left 2 k)).1
  have hline : m.traceLine? = some "     0  ADD 7, 8, [0]  (rb 0)\n" :=
    (hlines _ hshown).1.trans (by decide +kernel)
  have hcell : m.step.memory.get 0 = 15 := by decide +kernel
  have hexecute := hflag 2 ["p"] [] files [] hopen
  exact ⟨hover, hlegal, hshown, hline, hcell, ⟨_, ht, by decide +kernel, by decide +kernel⟩, hopen,
    hexecute.trans (by decide +kernel)⟩

end Intcode.Command
