import Intcode.Proofs.Command.Session
import Intcode.Proofs.Command.Arguments
import Intcode.Proofs.Command.Lines
import Intcode.Proofs.Machine.Streams

/-!
# Conversations

A program in a terminal runs until it rests. If it rests for want of input, it is given the words of one
line, and goes on. `Converses` says this of the machine alone: which lines it was given, what it put out
before, between and after them, and what it has become. `Concludes` says when a conversation is over, and
with which exit code.

## Main statements

A session comes to an end exactly if there is such a conversation (`Session.exists_play`,
`Session.exists_converses`), and then it has shown just the words of the conversation. And a conversation
comes to what the machine settles as with all the words at once (`Converses.settles`,
`exists_converses_of_settles`).
-/

namespace Intcode.Command

open Machine

/-- The words that a line of input stands for, if it stands for any. -/
def wordsOf? (asText : Bool) (line : String) : Option (List Word) :=
  if asText then some (Ascii.encodeLine line) else listed? line

/-- The words that a line of input stands for. -/
def wordsIn (asText : Bool) (line : String) : List Word :=
  (wordsOf? asText line).getD []

/-- The machine `m` runs until it rests, and each time it waits for input then, it is given the words of
the next of these lines and goes on. It comes to rest once for each line and once more, having put out
one list of words each time, and is `n` in the end. -/
inductive Converses (asText : Bool) : Machine → List String → List (List Word) → Machine → Prop
  | rests {m n : Machine} {out : List Word} : m.Settles out n → Converses asText m [] [out] n
  | feeds {m l n : Machine} {line : String} {lines : List String} {out words : List Word}
      {outs : List (List Word)} :
      m.Settles out l → l.status = .awaitingInput → wordsOf? asText line = some words →
        Converses asText (l.extend words) lines outs n →
          Converses asText m (line :: lines) (out :: outs) n

/-- A conversation is over for the machine `n`, with these lines left unread and this exit code. -/
inductive Concludes (asText : Bool) (n : Machine) : List String → Nat → Prop
  | halted {unread : List String} : n.status = .halted → Concludes asText n unread 0
  | faulted {unread : List String} (fault : Fault) :
      n.status = .faulted fault → Concludes asText n unread 3
  | starved : n.status = .awaitingInput → Concludes asText n [] 2
  | refused {line : String} {unread : List String} :
      n.status = .awaitingInput → wordsOf? asText line = none →
        Concludes asText n (line :: unread) 1

/-- Which lines are left unread matters only to a machine that waits for one, and then only the first. -/
theorem Concludes.of_unread {asText : Bool} {n : Machine} {unread other : List String} {code : Nat}
    (h : Concludes asText n unread code)
    (hother : code = 0 ∨ code = 3 ∨ other.head? = unread.head?) : Concludes asText n other code := by
  cases h with
  | halted hn => exact .halted hn
  | faulted fault hn => exact .faulted fault hn
  | starved hn =>
    rcases hother with h | h | h
    · cases h
    · cases h
    · obtain rfl := List.head?_eq_none_iff.mp h
      exact .starved hn
  | refused hn hnone =>
    rcases hother with h | h | h
    · cases h
    · cases h
    · obtain ⟨rest, rfl⟩ := List.head?_eq_some_iff.mp h
      exact .refused hn hnone

/-- Only a program that has halted ends with code 0. -/
theorem concludes_zero_iff {asText : Bool} {n : Machine} {unread : List String} :
    Concludes asText n unread 0 ↔ n.status = .halted := by
  refine ⟨fun h => ?_, .halted⟩
  generalize hcode : 0 = code at h
  cases h with
  | halted hn => exact hn
  | faulted | starved | refused => cases hcode

/-- What is shown of a conversation. -/
def shown (asText : Bool) (outs : List (List Word)) : String :=
  String.join (outs.map (laidOut asText))

@[simp] theorem shown_nil (asText : Bool) : shown asText [] = "" := rfl

theorem shown_cons (asText : Bool) (out : List Word) (outs : List (List Word)) :
    shown asText (out :: outs) = laidOut asText out ++ shown asText outs :=
  String.join_cons

theorem decimals_append (words more : List Word) :
    decimals (words ++ more) = decimals words ++ decimals more := by
  induction words with
  | nil => exact String.empty_append.symm
  | cons word words ih => simp only [List.cons_append, decimals_cons, ih, String.append_assoc]

/-- In decimal it makes no difference where the machine rested. -/
theorem shown_false (outs : List (List Word)) : shown false outs = decimals outs.flatten := by
  induction outs with
  | nil => rfl
  | cons out outs ih =>
    rw [shown_cons, ih, List.flatten_cons, decimals_append]
    rfl

namespace Session

variable {s : Session} {m n : Machine} {line : String} {lines unread : List String}
  {outs : List (List Word)} {code : Nat}

/-! ## Sessions are conversations -/

/-- A line is fed as the words that it stands for, and refused if it stands for none. -/
theorem exists_feed_eq (s : Session) (line : String) :
    ∃ message, s.feed (utf8 line) = match wordsOf? s.asciiOutput line with
      | some words => .ok { s with machine := s.machine.extend words }
      | none => .error message := by
  have hdecode : decodeText? (utf8 line) = some line := decodeText?_eq_some_iff.mpr rfl
  simp only [feed, hdecode, wordsOf?]
  cases s.asciiOutput with
  | true => exact ⟨"", rfl⟩
  | false =>
    rw [if_neg Bool.false_ne_true, if_neg Bool.false_ne_true, listed?]
    cases Program.parse line with
    | error cause => exact ⟨_, rfl⟩
    | ok program => exact ⟨"", rfl⟩

/-- A session whose machine is at its last rest reports so, after all that it has shown. -/
theorem play_of_concludes (hconcludes : Concludes s.tick.asciiOutput n unread code)
    (hm : s.tick.machine.cleared = n.cleared) :
    ∃ report, s.play 1 (unread.map utf8) = some report ∧ report.verdict.code = code ∧
      report.console.out = s.tick.console.out := by
  have hstatus := status_of_cleared_eq hm
  cases hconcludes with
  | halted hn =>
    refine ⟨s.tick.finish .success, ?_, rfl, rfl⟩
    rw [play_succ, hstatus, hn]
  | faulted fault hn =>
    refine ⟨s.tick.finish .faulted, ?_, rfl, rfl⟩
    rw [play_succ, hstatus, hn]
  | starved hn =>
    refine ⟨(s.tick.complain s.tick.starvedMessage).finish .starved, ?_, rfl, rfl⟩
    rw [play_succ, hstatus, hn]
    rfl
  | @refused line _ hn hnone =>
    obtain ⟨message, hfeed⟩ := s.tick.exists_feed_eq line
    rw [hnone] at hfeed
    refine ⟨(s.tick.complain message).finish .refused, ?_, rfl, rfl⟩
    rw [play_succ, hstatus, hn, List.map_cons]
    simp only [hfeed]

/-- A session whose machine waits for input goes on with the words of the next line. -/
theorem play_of_wordsOf?_eq_some {words : List Word} (hwaiting : s.tick.machine.status = .awaitingInput)
    (hwords : wordsOf? s.tick.asciiOutput line = some words) (fuel : Nat)
    (rest : List (List UInt8)) :
    s.play (fuel + 1) (utf8 line :: rest) =
      ({ s.tick with machine := s.tick.machine.extend words } : Session).play fuel rest := by
  obtain ⟨message, hfeed⟩ := s.tick.exists_feed_eq line
  rw [hwords] at hfeed
  rw [play_succ, hwaiting]
  simp only [hfeed]

/-- A session to which a conversation is open comes to the end of it,
with its exit code, and has then shown its words. -/
theorem exists_play (hconverses : Converses s.asciiOutput m lines outs n)
    (hconcludes : Concludes s.asciiOutput n unread code) (hm : s.machine.cleared = m.cleared)
    (htext : s.text = #[]) :
    ∃ fuel report, s.play fuel ((lines ++ unread).map utf8) = some report ∧
      report.verdict.code = code ∧
      report.console.out = s.console.out ++ shown s.asciiOutput outs := by
  generalize hasText : s.asciiOutput = asText at hconverses hconcludes
  have hshowing {s : Session} (htext : s.text = #[]) (out : List Word) :
      s.showing out = s.console.out ++ laidOut s.asciiOutput out := by
    rw [showing, htext]
    rfl
  induction hconverses generalizing s with
  | @rests m n out hsettles =>
    obtain ⟨k, last, hplay, hlast, hascii, -, hout⟩ :=
      exists_tick_of_settles hsettles hm fun _ => htext
    rw [← hasText, ← hascii] at hconcludes
    obtain ⟨report, hreport, hcode, hshown⟩ := play_of_concludes hconcludes hlast
    refine ⟨1 + k, report, (hplay 1 _).trans hreport, hcode, ?_⟩
    rw [hshown, hout, hshowing htext, hasText, shown_cons, shown_nil, String.append_empty]
  | @feeds m l n line lines out words outs hsettles hwaiting hwords _ ih =>
    obtain ⟨k, last, hplay, hlast, hascii, htext', hout⟩ :=
      exists_tick_of_settles hsettles hm fun _ => htext
    rw [← hasText, ← hascii] at hwords
    have hnext := play_of_wordsOf?_eq_some ((status_of_cleared_eq hlast).trans hwaiting) hwords
    have hcleared : (last.tick.machine.extend words).cleared = (l.extend words).cleared :=
      congrArg (fun n => Machine.extend n words) hlast
    obtain ⟨fuel, report, hreport, hcode, hshown⟩ :=
      ih (s := { last.tick with machine := last.tick.machine.extend words }) hcleared htext'
        (hascii.trans hasText) hconcludes
    refine ⟨fuel + 1 + k, report, ?_, hcode, ?_⟩
    · rw [hplay, List.cons_append, List.map_cons, hnext, hreport]
    · rw [hshown, shown_cons, ← String.append_assoc]
      show last.tick.console.out ++ _ = _
      rw [hout, hshowing htext, hasText]

/-- Where a session comes to an end, there was a conversation that was over. -/
theorem exists_converses {fuel : Nat} {report : Report}
    (h : s.play fuel (lines.map utf8) = some report) (hm : s.machine.cleared = m.cleared)
    (htext : s.text = #[]) :
    ∃ read unread outs n code, lines = read ++ unread ∧
      Converses s.asciiOutput m read outs n ∧ Concludes s.asciiOutput n unread code := by
  induction fuel generalizing s m lines with
  | zero => cases h
  | succ fuel ih =>
    obtain ⟨out, n, hsettles⟩ := exists_settles_of_play h hm fun _ => htext
    obtain ⟨k, last, hplay, hlast, hascii, htext', -⟩ :=
      exists_tick_of_settles hsettles hm fun _ => htext
    have hlastPlay : last.play (fuel + 1) (lines.map utf8) = some report :=
      (hplay _ _).symm.trans (play_mono h k)
    have hover (code : Nat) (hconcludes : Concludes s.asciiOutput n lines code) :
        ∃ read unread outs n code, lines = read ++ unread ∧
          Converses s.asciiOutput m read outs n ∧ Concludes s.asciiOutput n unread code :=
      ⟨[], lines, [out], n, code, rfl, .rests hsettles, hconcludes⟩
    have hrest : n.isAtRest = true := by
      obtain ⟨-, -, -, hrest, -⟩ := hsettles
      exact hrest
    rcases status_of_isAtRest hrest with hn | hn | ⟨fault, hn⟩
    · cases lines with
      | nil => exact hover 2 (.starved hn)
      | cons line lines =>
        cases hwords : wordsOf? s.asciiOutput line with
        | none => exact hover 1 (.refused hn hwords)
        | some words =>
          have hwaiting := (status_of_cleared_eq hlast).trans hn
          rw [List.map_cons, play_of_wordsOf?_eq_some hwaiting (hascii ▸ hwords)] at hlastPlay
          have hcleared : (last.tick.machine.extend words).cleared = (n.extend words).cleared :=
            congrArg (fun n => Machine.extend n words) hlast
          obtain ⟨read, unread, outs, n', code, rfl, hconverses, hconcludes⟩ :=
            ih hlastPlay hcleared htext'
          have hfed := Converses.feeds hsettles hn hwords (hascii ▸ hconverses)
          exact ⟨line :: read, unread, out :: outs, n', code, rfl, hfed, hascii ▸ hconcludes⟩
    · exact hover 0 (.halted hn)
    · exact hover 3 (.faulted fault hn)

end Session

/-! ## Words at once -/

variable {asText : Bool} {m n : Machine} {lines : List String} {outs : List (List Word)}
  {out : List Word}

/-- There is one list of words more than there are lines. -/
theorem Converses.length_eq (h : Converses asText m lines outs n) :
    outs.length = lines.length + 1 := by
  induction h with
  | rests => rfl
  | feeds _ _ _ _ ih => rw [List.length_cons, List.length_cons, ih]

/-- With all the words of the lines queued beforehand, the machine settles as it does in the
conversation. -/
theorem Converses.settles (h : Converses asText m lines outs n) :
    (m.extend (lines.flatMap (wordsIn asText))).Settles outs.flatten n := by
  induction h with
  | @rests m n out hsettles =>
    rw [List.flatMap_nil, extend_nil, List.flatten_singleton]
    exact hsettles
  | @feeds m l n line lines out words outs hsettles _ hwords _ ih =>
    have hline : wordsIn asText line = words := by
      rw [wordsIn, hwords]
      rfl
    rw [List.flatMap_cons, hline, List.flatten_cons]
    refine settles_extend_iff.mpr ⟨out, l, outs.flatten, rfl, hsettles, ?_⟩
    rw [← extend_extend]
    exact ih

/-- And from what it settles as, the conversation can be told. Lines are left unread only if the machine
has come to its end before. -/
theorem exists_converses_of_settles (hsome : ∀ line ∈ lines, (wordsOf? asText line).isSome = true)
    (h : (m.extend (lines.flatMap (wordsIn asText))).Settles out n) :
    ∃ read unread outs n', lines = read ++ unread ∧ Converses asText m read outs n' ∧
      outs.flatten = out ∧ n'.status = n.status ∧ (n.status = .awaitingInput → unread = []) := by
  induction lines generalizing m out with
  | nil =>
    rw [List.flatMap_nil, extend_nil] at h
    exact ⟨[], [], [out], n, rfl, .rests h, List.flatten_singleton, rfl, fun _ => rfl⟩
  | cons line lines ih =>
    obtain ⟨first, l, rest, rfl, hfirst, hrest⟩ := settles_extend_iff.mp h
    rcases hfirst.isOver_or_starves with hover | hstarves
    · -- what has come to its end does not look at more words
      have hended : (l.extend ((line :: lines).flatMap (wordsIn asText))).isOver = true := hover
      obtain ⟨rfl, rfl⟩ := hrest.eq_self (isAtRest_of_isOver hended) (step_of_isOver hended)
      refine ⟨[], line :: lines, [first], l, rfl, .rests hfirst, ?_, rfl, fun hwaiting => ?_⟩
      · rw [List.flatten_singleton, List.append_nil]
      · rw [isOver, show l.status = .awaitingInput from hwaiting] at hover
        cases hover
    · have hwaiting : l.status = .awaitingInput := by
        obtain ⟨-, -, -, -, hstep⟩ := hfirst
        rw [← hstep, step_of_starves hstarves]
      obtain ⟨words, hwords⟩ := Option.isSome_iff_exists.mp (hsome line List.mem_cons_self)
      have hline : wordsIn asText line = words := by
        rw [wordsIn, hwords]
        rfl
      rw [List.flatMap_cons, hline, ← extend_extend] at hrest
      obtain ⟨read, unread, outs, n', rfl, hconverses, rfl, hstatus, hnone⟩ :=
        ih (fun line hline => hsome line (List.mem_cons_of_mem _ hline)) hrest
      exact ⟨line :: read, unread, first :: outs, n', rfl, .feeds hfirst hwaiting hwords hconverses,
        rfl, hstatus, hnone⟩

/-- Of lines that all stand for words, a conversation comes to what the machine settles as with all the
words. -/
theorem exists_converses_iff_settles (hsome : ∀ line ∈ lines, (wordsOf? asText line).isSome = true)
    (code : Nat) :
    (∃ read unread outs n, lines = read ++ unread ∧ Converses asText m read outs n ∧
        Concludes asText n unread code ∧ outs.flatten = out) ↔
      ∃ n, (m.extend (lines.flatMap (wordsIn asText))).Settles out n ∧
        Concludes asText n [] code := by
  constructor
  · rintro ⟨read, unread, outs, n, rfl, hconverses, hconcludes, rfl⟩
    have hsettles := hconverses.settles
    have hover (h : n.isOver = true) :
        (m.extend ((read ++ unread).flatMap (wordsIn asText))).Settles outs.flatten
          (n.extend (unread.flatMap (wordsIn asText))) := by
      rw [List.flatMap_append, ← extend_extend]
      have hended : (n.extend (unread.flatMap (wordsIn asText))).Settles [] _ := settles_of_isOver h
      exact settles_extend_iff.mpr ⟨_, n, [], (List.append_nil _).symm, hsettles, hended⟩
    cases hconcludes with
    | halted hn => exact ⟨_, hover (by rw [isOver, hn]), .halted hn⟩
    | faulted fault hn => exact ⟨_, hover (by rw [isOver, hn]), .faulted fault hn⟩
    | starved hn =>
      rw [List.append_nil]
      exact ⟨n, hsettles, .starved hn⟩
    | @refused line _ _ hnone =>
      have hline := hsome line (List.mem_append_right _ List.mem_cons_self)
      rw [hnone] at hline
      cases hline
  · rintro ⟨n, hsettles, hconcludes⟩
    obtain ⟨read, unread, outs, n', hlines, hconverses, hout, hstatus, hnone⟩ :=
      exists_converses_of_settles hsome hsettles
    refine ⟨read, unread, outs, n', hlines, hconverses, ?_, hout⟩
    cases hconcludes with
    | halted hn => exact .halted (hstatus.trans hn)
    | faulted fault hn => exact .faulted fault (hstatus.trans hn)
    | starved hn =>
      rw [hnone hn]
      exact .starved (hstatus.trans hn)

end Intcode.Command
