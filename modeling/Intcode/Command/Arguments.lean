import Intcode.Program

/-!
# Command line arguments

The arguments behind a command's name are read from left to right. Some flags stand alone, some take
the argument behind them as their value, whatever it looks like, and the one argument that is no flag
names the program's file. The first thing wrong ends the reading.

Which flags there are, and what they set, is a `Flags` record; `Flags.scan` is the reading.
-/

namespace Intcode.Command

/-- A command that works on a program. -/
inductive Verb where
  | run
  | disassemble
  | chain
  deriving DecidableEq

namespace Verb

/-- The name of the command. -/
def name : Verb → String
  | run => "run"
  | disassemble => "disassemble"
  | chain => "chain"

/-- The line that shows how the command is used. -/
def usage : Verb → String
  | run => "Usage: intcode run <prog> [--input a,b,..] [--ascii LINE] [--ascii-output] [--bits64] " ++
    "[--trace]\n"
  | disassemble => "Usage: intcode disassemble <prog>\n"
  | chain => "Usage: intcode chain <prog> --phases p,q,.. [--input SIGNAL] [--feedback]\n"

end Verb

/-- What is wrong with a command's arguments. -/
inductive ArgumentError where
  | missingValue (flag : String)
  | invalidList (cause : LoadError)
  | severalSignals
  | unknownFlag (flag : String)
  | unexpected (argument : String)
  | missingFile (verb : Verb)
  | missingPhases
  deriving DecidableEq

/-- The wording of a complaint about a list of words. -/
def invalidListMessage (cause : LoadError) : String :=
  "error: invalid input list: " ++ cause.message ++ "\n"

/-- The wording of a complaint. -/
def ArgumentError.message : ArgumentError → String
  | missingValue flag => "error: " ++ flag ++ " requires a value\n"
  | invalidList cause => invalidListMessage cause
  | severalSignals => "error: --input takes a single signal\n"
  | unknownFlag flag => "error: unknown flag '" ++ flag ++ "'\n"
  | unexpected argument => "error: unexpected argument '" ++ argument ++ "'\n"
  | missingFile verb => "error: " ++ verb.name ++ " requires an input file\n" ++ verb.usage
  | missingPhases => "error: --phases is required\n" ++ Verb.chain.usage

/-- Reads a list of words, which is written like a program. -/
def readWords (text : String) : Except ArgumentError (List Word) :=
  match Program.parse text with
  | .ok program => .ok program.words
  | .error cause => .error (.invalidList cause)

/-- The flags of a command, by what they do to its options. -/
structure Flags (ω : Type) where
  /-- Flags that stand alone. -/
  switch? : String → Option (ω → ω)
  /-- Flags with a value. -/
  valued? : String → Option (String → ω → Except ArgumentError ω)

/-- Whether an argument looks like a flag: it begins with two dashes. -/
def looksLikeFlag (argument : String) : Bool :=
  argument.toList.take 2 == ['-', '-']

/-- Reads arguments, given the file named so far and the options set so far. -/
def Flags.scan {ω : Type} (flags : Flags ω) (file : Option String) (options : ω) :
    List String → Except ArgumentError (Option String × ω)
  | [] => .ok (file, options)
  | argument :: rest =>
    match flags.valued? argument with
    | some set =>
      match rest with
      | [] => .error (.missingValue argument)
      | value :: rest =>
        match set value options with
        | .error e => .error e
        | .ok options => flags.scan file options rest
    | none =>
      match flags.switch? argument with
      | some turnOn => flags.scan file (turnOn options) rest
      | none =>
        if looksLikeFlag argument then .error (.unknownFlag argument)
        else if file.isSome then .error (.unexpected argument)
        else flags.scan (some argument) options rest

end Intcode.Command
