import CueCheck.Check
import CueCheck.Level
import CueCheck.RateTable.Position

/-!
# Reports

A report has one line per kind with findings, in reporting order, with the position of each.

* `positionOf` is the position of a time in a level; `report` writes the whole report.
* `checkLevel` checks a decoded level.
-/

namespace CueCheck

variable {α : Type} [Scalar α]

/-- The position of a time: its beat, split into a bar and a beat within it. -/
def positionOf (bars tempos : RateTable α) (time : α) : Except SplitError Position := do
  let (bar, beat) ← bars.split (tempos.inverse time)
  (Position.ofBarBeat bar beat).mapError .notIntegral

/-- The line of a kind: its words and the positions. -/
def reportLine (kind : FindingKind) (positions : List Position) : String :=
  kind.description ++ ": " ++ ", ".intercalate (positions.map Position.text) ++ "\n"

/-- The lines of the given kinds; a kind without findings has none. -/
def reportLines (bars tempos : RateTable α) (findings : Findings α) :
    List FindingKind → Except SplitError (List String)
  | [] => .ok []
  | kind :: kinds => do
    let times := findings.times kind
    if times.isEmpty then reportLines bars tempos findings kinds
    else
      let positions ← times.mapM (positionOf bars tempos)
      return reportLine kind positions :: (← reportLines bars tempos findings kinds)

/-- The report of findings in a level. -/
def report (level : Level α) (findings : Findings α) : Except SplitError String :=
  return String.join (← reportLines level.bars level.tempos findings FindingKind.all)

/-- Checks a level; every press of the level counts as a hit. -/
def checkLevel (options : Options) (level : Level α) : CheckResult α :=
  check options level.cues level.beats level.holds (some level.hits)

end CueCheck
