import CueCheck.CommandLine
import CueCheck.Scalar.Binary64

/-!
# The program

Reads the files that the arguments name and standard input, and answers the command line.
-/

namespace CueCheck

/-- What reading gives, or the words for what went wrong. -/
def attempt (read : IO String) : IO (Except String (List Char)) := do
  try
    return .ok (← read).toList
  catch why => return .error (toString why)

/-- The contents of a file, if there is one. -/
def contentsOf? (path : List Char) : IO (Option (Except String (List Char))) := do
  try
    return some (.ok (← IO.FS.readFile (String.ofList path)).toList)
  catch
    | .noFileOrDirectory .. => return none
    | why => return some (.error (toString why))

/-- The files that a request names, with their contents. -/
def filesOf (request : Request) :
    IO (List (List Char × Option (Except String (List Char)))) :=
  (request.level?.toList ++ request.config?.toList).mapM fun path => do
    return (path, ← contentsOf? path)

/-- Standard input, unless the level is in a file. -/
def inputOf (request : Request) : IO (Except String (List Char)) := do
  if request.level?.isSome then return .ok []
  attempt (do (← IO.getStdin).readToEnd)

/-- What a command line asks for is answered with the files that it names and standard input. -/
def environmentOf : Asked → IO (Environment String)
  | .check request => do
    let files ← filesOf request
    return .withSettings (fun path => (files.lookup path).join) (← inputOf request)
  | .help | .badUsage => return .withSettings (fun _ => none) (.ok [])

end CueCheck

open CueCheck

/-- Checks a level and prints its report. -/
def main (arguments : List String) : IO UInt32 := do
  let asked := Asked.ofArguments arguments
  if asked = .badUsage then IO.eprint usage
  match asked.answer Float (← environmentOf asked) with
  | .ok outcome =>
    IO.print outcome.output
    return outcome.status.toUInt32
  | .error why =>
    IO.eprintln (why.message id)
    return 1
