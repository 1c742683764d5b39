import Intcode.Command.Session
import Intcode.Listing
import Intcode.Pipeline

/-!
# The command line

`Request.parse` reads the whole command line, `Request.start` goes on once the program's file has been
read, and `Job.perform` does the rest. `execute` is all of it over given files and a given standard
input.
-/

namespace Intcode.Command

/-- The overview of all commands. -/
def overview : String :=
  "Usage: intcode <command> [args]\n" ++
  "\n" ++
  "Commands:\n" ++
  "  run <prog> [options]                  Run a program to halt\n" ++
  "      --input a,b,..                    Queue integer inputs\n" ++
  "      --ascii LINE                      Queue a line of text (repeatable)\n" ++
  "      --ascii-output                    Print output as text, read text from stdin\n" ++
  "      --bits64                          Fault on values outside 64 bits\n" ++
  "      --trace                           Print each instruction to stderr\n" ++
  "  disassemble <prog>                    List a program's instructions\n" ++
  "  chain <prog> --phases p,q,.. [--input SIGNAL] [--feedback]\n" ++
  "                                        Run a chain of amplifiers\n"

/-- A command line that asks for work on a file. -/
inductive Request where
  | run (options : RunOptions)
  | disassemble (file : String)
  | chain (options : ChainOptions) (phases : List Word)

namespace Request

/-- The file that is asked for. -/
def file : Request → String
  | run options => options.file
  | disassemble file => file
  | chain options _ => options.file

/-- The request that a command's arguments make. -/
def ofVerb : Verb → List String → Except ArgumentError Request
  | .run, arguments => (RunOptions.parse arguments).map run
  | .disassemble, [] => .error (.missingFile .disassemble)
  | .disassemble, file :: _ => .ok (disassemble file)
  | .chain, arguments => (ChainOptions.parse arguments).map fun (options, phases) => chain options phases

/-- The command of a given name. -/
def verb? (name : String) : Option Verb :=
  [Verb.run, .disassemble, .chain].find? fun verb => verb.name = name

/-- Reads a command line. Without a request there is nothing to be done but to report. -/
def parse : List String → Except Report Request
  | [] => .error (.complaint .refused overview)
  | name :: arguments =>
    match verb? name with
    | some verb =>
      match ofVerb verb arguments with
      | .ok request => .ok request
      | .error e => .error (.complaint .refused e.message)
    | none =>
      if name ∈ ["--help", "-h", "help"] then .error (.complaint .success overview)
      else
        .error (.complaint .refused ("error: unknown command '" ++ name ++ "'\n\n" ++ overview))

end Request

/-- Work on a program that has been loaded. -/
inductive Job where
  | done (report : Report)
  | converse (session : Session)
  | drive (pipeline : Pipeline) (signal : Word)

/-- Loads a program from the bytes of its file, or from the reason for which there are none. -/
def loadProgram (file : String) (content : Except String (List UInt8)) : Except String Program :=
  let unreadable (reason : String) := "error: cannot read '" ++ file ++ "': " ++ reason ++ "\n"
  match content with
  | .error reason => .error (unreadable reason)
  | .ok bytes =>
    match decodeText? bytes with
    | none => .error (unreadable notTextMessage)
    | some text =>
      match Program.parse text with
      | .error e => .error ("error: invalid program '" ++ file ++ "': " ++ e.message ++ "\n")
      | .ok program => .ok program

/-- Goes on with a request once its file has been read. -/
def Request.start (request : Request) (content : Except String (List UInt8)) : Job :=
  match loadProgram request.file content with
  | .error message => .done (.complaint .refused message)
  | .ok program =>
    match request with
    | run options => .converse (.ofOptions options program)
    | disassemble _ => .done (.printed program.listing)
    | chain options phases =>
      .drive (.ofProgram program phases (configFor options.bits64) options.feedback) options.signal

namespace Job

/-- The report on a signal that was driven through a pipeline. -/
def reportSignal : Except Fault (Option Word) × Pipeline → Report
  | (.error fault, _) => .complaint .faulted ("runtime error: " ++ fault.message ++ "\n")
  | (.ok (some signal), _) => .printed (Word.text signal ++ "\n")
  | (.ok none, pipeline) =>
    if pipeline.stages.getLast?.map Machine.status = some .awaitingInput then
      .complaint .starved "error: chain needs more input than it was given\n"
    else .complaint .success "chain halted without producing a signal\n"

/-- Carries a job out on a given standard input, with a bound on the number of instructions. -/
def perform (fuel : Nat) (stdin : List UInt8) : Job → Option Report
  | done report => some report
  | converse session => session.play fuel (inputLines stdin)
  | drive pipeline signal => (pipeline.run fuel signal).map reportSignal

end Job

/-- Executes a command line, given the files there are and the standard input. -/
def execute (fuel : Nat) (arguments : List String)
    (files : String → Except String (List UInt8)) (stdin : List UInt8) : Option Report :=
  match Request.parse arguments with
  | .error report => some report
  | .ok request => (request.start (files request.file)).perform fuel stdin

end Intcode.Command
