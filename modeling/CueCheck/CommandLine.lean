import CueCheck.CommandLine.Answer
import CueCheck.Options.Settings

/-!
# The command line

What the arguments ask for, answered with the settings reader of this program.
-/

namespace CueCheck

/-- How the program is used. -/
def usage : String :=
  "usage: cue-check [-h] [-s] [-p] [-t] [-v] [--config FILE] [--set KEY=VALUE] [LEVEL]\n"

/-- Files and standard input, with options loaded by `Options.ofSettings`. -/
def Environment.withSettings {ε : Type} (file? : List Char → Option (Except ε (List Char)))
    (input : Except ε (List Char)) : Environment ε where
  file? := file?
  input := input
  load settings overrides := .ok (Options.ofSettings settings overrides).toOption

/-- Answers what is asked for. Help is printed, and nothing else is done. -/
def Asked.answer {ε : Type} (α : Type) [Scalar α] (environment : Environment ε) :
    Asked → Except (Failure ε) Outcome
  | .check request => request.run α environment
  | .help => .ok ⟨0, usage⟩
  | .badUsage => .ok .refused

/-- Answers a command line. `read?` gives the contents of the files that exist, `input` is standard
input. -/
def answerArguments (α : Type) [Scalar α] (arguments : List String)
    (read? : List Char → Option (List Char)) (input : List Char) :
    Except (Failure Empty) Outcome :=
  (Asked.ofArguments arguments).answer α
    (.withSettings (fun path => (read? path).map .ok) (.ok input))

end CueCheck
