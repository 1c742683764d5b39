import Intcode.Machine.Run
import Intcode.Machine.Trace

/-!
# Pipelines

A pipeline is a chain of machines that run one program. Each begins with a phase of its own in its
queue. A signal enters the first stage; what a stage puts out is queued for the next.

## Driving

A *pass* drains the stages one after the other, each with the words of the one before. Without
feedback a signal is one pass. With feedback the last stage's words enter the first stage of another
pass, until the last stage has halted or a pass moved no word at all. The answer is the last word
that the last stage put out. A fault in a stage ends the pass and the drive; the stages behind it were
not touched in that pass.
-/

namespace Intcode

/-- A chain of machines. -/
structure Pipeline where
  stages : List Machine
  feedback : Bool

namespace Pipeline

/-- One stage per phase. -/
def ofProgram (program : Program) (phases : List Word) (config : Config) (feedback : Bool) :
    Pipeline where
  stages := phases.map (Machine.ofProgram program config).push
  feedback := feedback

/-- What a pass that met no fault hands on. -/
structure Carry where
  /-- The words of the last stage. -/
  words : List Word
  /-- Whether any stage put out a word. -/
  moved : Bool

/-- Drains the stages in order, the first one with the given words. Yields the stages afterwards. -/
def pass (fuel : Nat) (words : List Word) :
    List Machine → Option (Except Fault Carry × List Machine)
  | [] => some (.ok ⟨words, false⟩, [])
  | stage :: rest =>
    match (stage.extend words).drain fuel with
    | none => none
    | some (outputs, stage) =>
      match stage.fault? with
      | some fault => some (.error fault, stage :: rest)
      | none =>
        match pass fuel outputs rest with
        | none => none
        | some (.error fault, rest) => some (.error fault, stage :: rest)
        | some (.ok carry, rest) =>
          some (.ok ⟨carry.words, !outputs.isEmpty || carry.moved⟩, stage :: rest)

/-- Whether the last stage has halted. -/
def isFinished (p : Pipeline) : Bool :=
  match p.stages.getLast? with
  | some stage => stage.status = .halted
  | none => true

/-- Passes until there is no reason for another; `last` is the last word put out so far. -/
def cycle (fuel : Nat) :
    Nat → List Word → Option Word → Pipeline → Option (Except Fault (Option Word) × Pipeline)
  | 0, _, _, _ => none
  | rounds + 1, words, last, p =>
    match pass fuel words p.stages with
    | none => none
    | some (.error fault, stages) => some (.error fault, { p with stages })
    | some (.ok carry, stages) =>
      let p := { p with stages }
      let last := carry.words.getLast?.or last
      if p.feedback && !p.isFinished && carry.moved then cycle fuel rounds carry.words last p
      else some (.ok last, p)

/-- Drives a signal through the pipeline. -/
def run (fuel : Nat) (signal : Word) (p : Pipeline) :
    Option (Except Fault (Option Word) × Pipeline) :=
  if p.stages.isEmpty then some (.ok none, p) else cycle fuel fuel [signal] none p

/-- The pipeline on one line. -/
def summary (p : Pipeline) : String :=
  "Pipeline \x7b stages: [" ++ ", ".intercalate (p.stages.map Machine.summary) ++
    s!"], feedback: {p.feedback} \x7d"

end Pipeline

end Intcode
