import Intcode.Command.Options
import Intcode.Command.Report
import Intcode.Machine.Run
import Intcode.Machine.Trace

/-!
# Running a program in a terminal

The command `run` executes a program until it halts or faults. When the machine finds no input, it
reads a line of standard input, and only then. Output words are printed in decimal, one a line; with
`--ascii-output` they are held back and laid out as text whenever the program waits for input or ends,
and a line of input is text as well.

## Contents

* `inputLines` cuts standard input into lines, of which none is decoded before it is needed.
* `Session.tick` executes one instruction and `Session.feed` queues one line. Everything that a
  session does is one of the two.
* `Session.play` is the whole session.
-/

namespace Intcode.Command

/-- Drops a carriage return at the end of a line. -/
def dropReturn (line : List UInt8) : List UInt8 :=
  if line.getLast? = some 13 then line.dropLast else line

/-- The lines of a text in bytes. Each ends with a newline, and a carriage return in front of that is
part of the line's end; what follows the last newline is a line if it is not empty. -/
def inputLines (bytes : List UInt8) : List (List UInt8) :=
  let pieces := bytes.splitOn 10
  let complete := pieces.dropLast.map dropReturn
  match pieces.getLast? with
  | none | some [] => complete
  | some last => complete ++ [last]

/-- The text that UTF-8 bytes encode. -/
def decodeText? (bytes : List UInt8) : Option String :=
  String.fromUTF8? (.mk bytes.toArray)

/-- What is said of bytes that are not UTF-8. -/
def notTextMessage : String :=
  "stream did not contain valid UTF-8"

/-- A program being run. -/
structure Session where
  machine : Machine
  asciiOutput : Bool
  trace : Bool
  /-- Output words that are held back. -/
  text : Array Word
  console : Console

namespace Session

/-- A session at its beginning: the words of all lists are queued before all lines. -/
def ofOptions (options : RunOptions) (program : Program) : Session where
  machine :=
    options.lines.foldl Machine.pushLine
      ((Machine.ofProgram program (configFor options.bits64)).extend options.inputs)
  asciiOutput := options.asciiOutput
  trace := options.trace
  text := #[]
  console := {}

/-- Prints on standard error. -/
def complain (s : Session) (text : String) : Session :=
  { s with console := s.console.complain text }

/-- Prints the words held back. -/
def flush (s : Session) : Session :=
  if s.text.isEmpty then s
  else { s with text := #[], console := s.console.print (Ascii.render s.text.toList) }

/-- Prints an output word, or holds it back. -/
def emit (s : Session) (word : Word) : Session :=
  if s.asciiOutput then { s with text := s.text.push word }
  else { s with console := s.console.print (Word.text word ++ "\n") }

/-- Shows the next instruction. -/
def showNext (s : Session) : Session :=
  if s.trace then
    match s.machine.traceLine? with
    | some line => s.complain line
    | none => s
  else s

/-- Takes the word out of the output slot and prints it. -/
def takeOutput (s : Session) : Session :=
  match s.machine.takeOutput with
  | (some word, machine) => { s with machine }.emit word
  | (none, machine) => { s with machine }

/-- Executes one instruction and prints what it gives rise to. -/
def tick (s : Session) : Session :=
  let s := s.showNext
  let s := { s with machine := s.machine.step }
  match s.machine.status with
  | .running => s
  | .output => s.takeOutput
  | .awaitingInput | .halted => s.flush
  | .faulted fault => s.flush.complain ("runtime error: " ++ fault.message ++ "\n")

/-- Queues a line of standard input, or tells why it is none. -/
def feed (s : Session) (line : List UInt8) : Except String Session :=
  match decodeText? line with
  | none => .error ("error: cannot read stdin: " ++ notTextMessage ++ "\n")
  | some line =>
    if s.asciiOutput then .ok { s with machine := s.machine.pushLine line }
    else
      match Program.parse line with
      | .error cause => .error (invalidListMessage cause)
      | .ok program => .ok { s with machine := s.machine.extend program.words }

/-- What is said when standard input is at its end. -/
def starvedMessage (s : Session) : String :=
  "error: program needs more input (at " ++ Word.text s.machine.ip ++ ")\n"

/-- Ends the session. -/
def finish (s : Session) (verdict : Verdict) : Report :=
  ⟨verdict, s.console⟩

/-- Runs the program on the given lines of standard input, with a bound on the number of
instructions. -/
def play : Nat → Session → List (List UInt8) → Option Report
  | 0, _, _ => none
  | fuel + 1, s, lines =>
    let s := s.tick
    match s.machine.status with
    | .running | .output => play fuel s lines
    | .halted => some (s.finish .success)
    | .faulted _ => some (s.finish .faulted)
    | .awaitingInput =>
      match lines with
      | [] => some ((s.complain s.starvedMessage).finish .starved)
      | line :: rest =>
        match s.feed line with
        | .error message => some ((s.complain message).finish .refused)
        | .ok s => play fuel s rest

end Session

end Intcode.Command
