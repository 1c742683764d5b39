/-!
# Reports

What a finished command leaves behind: an exit code and the texts on standard output and standard
error.
-/

namespace Intcode.Command

/-- How a command ended. -/
inductive Verdict where
  | success
  /-- The arguments, a file or a line of input could not be used. -/
  | refused
  /-- The program wanted more input than there was. -/
  | starved
  /-- The program faulted. -/
  | faulted
  deriving DecidableEq

/-- The exit code. -/
def Verdict.code : Verdict → Nat
  | success => 0
  | refused => 1
  | starved => 2
  | faulted => 3

/-- Text that was printed, on standard output and on standard error. -/
structure Console where
  out : String := ""
  err : String := ""
  deriving DecidableEq

namespace Console

/-- Prints on standard output. -/
def print (c : Console) (text : String) : Console :=
  { c with out := c.out ++ text }

/-- Prints on standard error. -/
def complain (c : Console) (text : String) : Console :=
  { c with err := c.err ++ text }

end Console

/-- A finished command. -/
structure Report where
  verdict : Verdict
  console : Console
  deriving DecidableEq

namespace Report

/-- A command that printed its result and nothing else. -/
def printed (text : String) : Report :=
  ⟨.success, { out := text }⟩

/-- A command that could do no more than complain. -/
def complaint (verdict : Verdict) (text : String) : Report :=
  ⟨verdict, { err := text }⟩

end Report

end Intcode.Command
