import Intcode.Command.Job
import Intcode.Proofs.Command.Grouping

/-!
# The input that arguments give

The arguments of `run` hold input in two kinds of flags. Read from left to right, an argument `--input`
or `--ascii` takes the one behind it as its value, whatever that looks like. The input that the options
come to have are just these values, in order (`input_of_parse`).
-/

namespace Intcode.Command

/-- The words that a text lists, if it is a list of words. -/
def listed? (text : String) : Option (List Word) :=
  (Program.parse text).toOption.map Program.words

/-- The words that a text lists. -/
def listed (text : String) : List Word :=
  (listed? text).getD []

/-- The values that the arguments of `run` have for a flag, in order. -/
def valuesOf (flag : String) : List String → List String
  | [] => []
  | [_] => []
  | argument :: value :: rest =>
    if argument = "--input" ∨ argument = "--ascii" then
      if argument = flag then value :: valuesOf flag rest else valuesOf flag rest
    else valuesOf flag (value :: rest)

theorem valuesOf_cons {flag argument : String} (h : ¬ (argument = "--input" ∨ argument = "--ascii"))
    (rest : List String) : valuesOf flag (argument :: rest) = valuesOf flag rest := by
  cases rest with
  | nil => rfl
  | cons value rest => rw [valuesOf, if_neg h]

theorem listed?_text (list : WordList) : listed? list.text = some list.program.words := by
  rw [listed?, list.parses]
  rfl

theorem listed_text (list : WordList) : listed list.text = list.program.words := by
  rw [listed, listed?_text]
  rfl

namespace RunOptions

/-- The values of the two flags are what the groups give. -/
theorem valuesOf_written (groups : List Group) :
    valuesOf "--input" (written groups) = (groups.filterMap Group.list?).map WordList.text ∧
      valuesOf "--ascii" (written groups) = groups.filterMap Group.line? := by
  induction groups with
  | nil => exact ⟨rfl, rfl⟩
  | cons g groups ih =>
    obtain ⟨hinput, hascii⟩ := ih
    cases g with
    | input list => exact ⟨congrArg (list.text :: ·) hinput, hascii⟩
    | ascii line => exact ⟨hinput, congrArg (line :: ·) hascii⟩
    | switch s =>
      have hother : ¬ (s.flag = "--input" ∨ s.flag = "--ascii") := not_or.mpr s.flag_ne
      exact ⟨(valuesOf_cons hother _).trans hinput, (valuesOf_cons hother _).trans hascii⟩
    | file name hname =>
      have hother : ¬ (name = "--input" ∨ name = "--ascii") := by
        rintro (rfl | rfl) <;> exact hname (isDashed_of_mem_flagNames (by decide))
      exact ⟨(valuesOf_cons hother _).trans hinput, (valuesOf_cons hother _).trans hascii⟩

/-- The input in the options are the values of the two flags. -/
theorem input_of_parse {arguments : List String} {o : RunOptions} (h : parse arguments = .ok o) :
    (∀ value ∈ valuesOf "--input" arguments, (listed? value).isSome = true) ∧
      o.inputs = (valuesOf "--input" arguments).flatMap listed ∧
      o.lines = valuesOf "--ascii" arguments := by
  obtain ⟨g, rfl, rfl⟩ := parse_eq_ok_iff.mp h
  obtain ⟨hinput, hascii⟩ := valuesOf_written g.groups
  refine ⟨fun value hvalue => ?_, ?_, hascii.symm⟩
  · rw [Grouping.arguments, hinput] at hvalue
    obtain ⟨list, -, rfl⟩ := List.mem_map.mp hvalue
    rw [listed?_text]
    rfl
  · rw [Grouping.arguments, hinput, List.flatMap_map]
    simp only [listed_text]
    rfl

end RunOptions

/-! ## The request -/

/-- Arguments that are accepted make a request. -/
theorem Request.parse_run_of_ok {arguments : List String} {o : RunOptions}
    (h : RunOptions.parse arguments = .ok o) : parse ("run" :: arguments) = .ok (.run o) := by
  have hverb : verb? "run" = some .run := by decide
  rw [parse, hverb]
  simp only [ofVerb, h]
  rfl

/-- And others a complaint. -/
theorem Request.parse_run_of_error {arguments : List String} {e : ArgumentError}
    (h : RunOptions.parse arguments = .error e) :
    parse ("run" :: arguments) = .error (.complaint .refused e.message) := by
  have hverb : verb? "run" = some .run := by decide
  rw [parse, hverb]
  simp only [ofVerb, h]
  rfl

end Intcode.Command
