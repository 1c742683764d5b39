import Intcode.Command.Job

/-!
# The program

Reads files and standard input, prints, and sets the exit code. What is done and printed is decided
by `Intcode.Command`.
-/

namespace Intcode.Main

open Command

/-- Prints what a console holds. -/
def emit (console : Console) : IO Unit := do
  let out ← IO.getStdout
  out.putStr console.out
  out.flush
  let err ← IO.getStderr
  err.putStr console.err
  err.flush

/-- The number and the description that come with an error. -/
def details? : IO.Error → Option (UInt32 × String)
  | .noFileOrDirectory _ code text | .permissionDenied _ code text
  | .resourceExhausted _ code text | .inappropriateType _ code text
  | .alreadyExists _ code text | .invalidArgument _ code text
  | .otherError code text | .resourceBusy code text | .resourceVanished code text
  | .hardwareFault code text | .unsatisfiedConstraints code text
  | .illegalOperation code text | .protocolError code text | .timeExpired code text
  | .unsupportedOperation code text => some (code, text)
  | _ => none

/-- The operating system's message for an error. Some calls report its number negated. -/
def describe (e : IO.Error) : String :=
  match details? e with
  | none => toString e
  | some (code, text) =>
    let number := if code < 0x80000000 then code else 0 - code
    let wording :=
      match number with
      | 2 => "No such file or directory"
      | 13 => "Permission denied"
      | 20 => "Not a directory"
      | 21 => "Is a directory"
      | 36 => "File name too long"
      | 40 => "Too many levels of symbolic links"
      | _ => text
    s!"{wording} (os error {number})"

/-- Reads a file. -/
def readBytes (file : String) : IO (Except String (List UInt8)) := do
  match ← (IO.FS.readBinFile file).toBaseIO with
  | .ok bytes => return .ok bytes.toList
  | .error e => return .error (describe e)

/-- Reads standard input up to the end of a line. -/
partial def readLine (stdin : IO.FS.Stream) (read : Array UInt8) : IO (List UInt8) := do
  let bytes ← stdin.read 1
  match bytes.toList with
  | [] => return read.toList
  | byte :: _ => if byte = 10 then return (read.push byte).toList else readLine stdin (read.push byte)

/-- Runs a session, printing as it goes. -/
partial def converse (stdin : IO.FS.Stream) (session : Session) : IO Verdict := do
  let session := session.tick
  emit session.console
  let session := { session with console := {} }
  match session.machine.status with
  | .running | .output => converse stdin session
  | .halted => return .success
  | .faulted _ => return .faulted
  | .awaitingInput =>
    match inputLines (← readLine stdin #[]) with
    | [] =>
      emit { err := session.starvedMessage }
      return .starved
    | line :: _ =>
      match session.feed line with
      | .ok session => converse stdin session
      | .error message =>
        emit { err := message }
        return .refused

/-- Prints a report. -/
def deliver (report : Report) : IO Verdict := do
  emit report.console
  return report.verdict

/-- More instructions than can be executed. -/
def ample : Nat :=
  0x4000000000000000

/-- Carries out a command line. -/
def respond (arguments : List String) : IO Verdict := do
  match Request.parse arguments with
  | .error report => deliver report
  | .ok request =>
    match request.start (← readBytes request.file) with
    | .converse session => converse (← IO.getStdin) session
    | job =>
      match job.perform ample [] with
      | some report => deliver report
      | none => return .starved

end Intcode.Main

def main (arguments : List String) : IO UInt32 := do
  let verdict ← Intcode.Main.respond arguments
  return verdict.code.toUInt32
