import Intcode.Command.Arguments
import Intcode.Config

/-!
# Options of the commands

What the arguments of `run` and of `chain` come to. A word list or a line of text may be given several
times and adds to those before; a switch may be repeated; of several phase lists or signals the last
one counts.
-/

namespace Intcode.Command

/-- The word width that a machine has with and without the switch for 64 bits. -/
def configFor (bits64 : Bool) : Config :=
  { width := if bits64 then .bits64 else .unbounded }

/-- The arguments of `run`. -/
structure RunOptions where
  file : String := ""
  /-- The words to queue first. -/
  inputs : List Word := []
  /-- The lines of text to queue behind them. -/
  lines : List String := []
  asciiOutput : Bool := false
  bits64 : Bool := false
  trace : Bool := false
  deriving DecidableEq

namespace RunOptions

/-- The flags of `run`. -/
def flags : Flags RunOptions where
  switch? argument :=
    if argument = "--ascii-output" then some fun o => { o with asciiOutput := true }
    else if argument = "--bits64" then some fun o => { o with bits64 := true }
    else if argument = "--trace" then some fun o => { o with trace := true }
    else none
  valued? argument :=
    if argument = "--input" then
      some fun value o => (readWords value).map fun words => { o with inputs := o.inputs ++ words }
    else if argument = "--ascii" then
      some fun value o => .ok { o with lines := o.lines ++ [value] }
    else none

/-- Reads the arguments of `run`. -/
def parse (arguments : List String) : Except ArgumentError RunOptions :=
  match flags.scan none {} arguments with
  | .error e => .error e
  | .ok (none, _) => .error (.missingFile .run)
  | .ok (some file, options) => .ok { options with file }

end RunOptions

/-- The arguments of `chain`. -/
structure ChainOptions where
  file : String := ""
  phases : Option (List Word) := none
  signal : Word := 0
  feedback : Bool := false
  bits64 : Bool := false
  deriving DecidableEq

namespace ChainOptions

/-- The flags of `chain`. -/
def flags : Flags ChainOptions where
  switch? argument :=
    if argument = "--feedback" then some fun o => { o with feedback := true }
    else if argument = "--bits64" then some fun o => { o with bits64 := true }
    else none
  valued? argument :=
    if argument = "--phases" then
      some fun value o => (readWords value).map fun words => { o with phases := some words }
    else if argument = "--input" then
      some fun value o =>
        match readWords value with
        | .error e => .error e
        | .ok [signal] => .ok { o with signal }
        | .ok _ => .error .severalSignals
    else none

/-- Reads the arguments of `chain`: its options, and the phases, which have to be given. -/
def parse (arguments : List String) : Except ArgumentError (ChainOptions × List Word) :=
  match flags.scan none {} arguments with
  | .error e => .error e
  | .ok (none, _) => .error (.missingFile .chain)
  | .ok (some file, options) =>
    match options.phases with
    | none => .error .missingPhases
    | some phases => .ok ({ options with file }, phases)

end ChainOptions

end Intcode.Command
