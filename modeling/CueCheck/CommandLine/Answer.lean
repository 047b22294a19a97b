import CueCheck.CommandLine.Arguments
import CueCheck.Level.Decode
import CueCheck.Options
import CueCheck.Report

/-!
# Answers

A request is answered by checking a level and reporting on it. The exit status tells a clean level
from one with findings, and both from bad usage or a text that is no level.

* `reportOn` reports on a level, `answerText` on the level of a text.
* `Request.run` answers a request. Files, standard input and how options are loaded from settings
  are given from outside (`Environment`).
-/

namespace CueCheck

/-! ## Outcomes -/

/-- How a command line ends: the exit status and what is printed. -/
structure Outcome where
  status : Nat
  output : String
deriving DecidableEq, Repr

namespace Outcome

/-- Bad usage, or a text that is no level. -/
def refused : Outcome := ⟨2, ""⟩

/-- The report of a level: the status is one if there are findings. -/
def reported (found : Bool) (report : String) : Outcome := ⟨if found then 1 else 0, report⟩

end Outcome

/-- What breaks a request off without an outcome. -/
inductive Failure (ε : Type) where
  | missingConfig
  | decoding (why : LevelError)
  | reporting (why : SplitError)
  /-- What goes wrong with files, standard input or settings. -/
  | outside (why : ε)
deriving DecidableEq, Repr

/-- The words for it. -/
def Failure.message {ε : Type} (words : ε → String) : Failure ε → String
  | .missingConfig => "The settings file does not exist"
  | .decoding why => why.message
  | .reporting .zeroRate => "A bar or beat has no length"
  | .reporting (.notIntegral why) => why.message
  | .outside why => words why

/-- What a request meets outside. `ε` is what can go wrong there. -/
structure Environment (ε : Type) where
  /-- The files that exist, with their contents if these can be read as text. -/
  file? : List Char → Option (Except ε (List Char))
  /-- Standard input. -/
  input : Except ε (List Char)
  /-- Loads options from the text of a settings file, if there is one, and overrides. There are none
  if a setting is not one of a check. -/
  load : Option (List Char) → List (List Char) → Except ε (Option Options)

/-! ## Answers -/

section Answer

variable {ε : Type}

/-- Checks a level and reports on it. -/
def reportOn {α : Type} [Scalar α] (options : Options) (level : Level α) :
    Except SplitError Outcome := do
  let findings := (checkLevel options level).findings
  return .reported findings.isPresent (← report level findings)

/-- Checks the level of a text. -/
def answerText (α : Type) [Scalar α] (options : Options) (text : List Char) :
    Except (Failure ε) Outcome :=
  if text.isEmpty then .ok .refused
  else
    match (Level.ofText text : Except LevelError (Level α)) with
    | .error .noEvents => .ok .refused
    | .error why => .error (.decoding why)
    | .ok level => (reportOn options level).mapError .reporting

namespace Request

/-- What is read for the level: a file, which must exist, or standard input. -/
def levelText? (request : Request) (environment : Environment ε) :
    Option (Except ε (List Char)) :=
  match request.level? with
  | some path => (environment.file? path).map (·.map textOfFile)
  | none => some (environment.input.map unifyLineEnds)

/-- The text of the settings file, if one is named. -/
def settings (request : Request) (environment : Environment ε) :
    Except (Failure ε) (Option (List Char)) :=
  match request.config? with
  | none => .ok none
  | some path =>
    match environment.file? path with
    | none => .error .missingConfig
    | some text => (text.map some).mapError .outside

/-- Answers a request. A level file that does not exist is noticed before anything is read, and the
options are loaded before the level is read. -/
def run (α : Type) [Scalar α] (request : Request) (environment : Environment ε) :
    Except (Failure ε) Outcome :=
  match request.levelText? environment with
  | none => .ok .refused
  | some text => do
    let settings ← request.settings environment
    match ← (environment.load settings request.allOverrides).mapError .outside with
    | none => return .refused
    | some options => answerText α options (← text.mapError .outside)

end Request

end Answer

end CueCheck
