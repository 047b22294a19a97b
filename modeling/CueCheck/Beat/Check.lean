import CueCheck.Beat.Verdict
import CueCheck.Finding

/-!
# Checking the beats of a level

Each beat is judged by itself. Then the accepted ones are compared with each other, the rest are
excused where an accepted one lands, and each expected instant must be either hit or skipped.

* `Judged.ofBeats` judges the beats; `accepted`, `skips` and `timesOf` sort the verdicts.
* `checkBeats` puts the findings together.
-/

namespace CueCheck

open Scalar

/-- A beat with its verdict. -/
structure Judged (α : Type) where
  beat : Beat α
  verdict : Verdict α

variable {α : Type} [Scalar α]

/-- The kind of shot that two beats disagree about: the first beat's, or else the second's. Two
beats without one count as freezeshots. -/
def overlapKind (a b : Beat α) : ShotKind :=
  match a.shot?, b.shot? with
  | some shot, _ => shot.kind
  | none, some shot => shot.kind
  | none, none => .freeze

namespace Judged

/-- Beats with their verdicts. -/
def ofBeats (beats : List (Beat α)) (expected : List (ExpectedBeat α)) : List (Judged α) :=
  beats.map fun beat => ⟨beat, beat.verdict expected⟩

/-- The accepted beats, by time. -/
def accepted (judged : List (Judged α)) : List (Beat α) :=
  sortBy (fun a b => less a.time b.time) <| judged.filterMap fun j =>
    match j.verdict with
    | .cued _ => some j.beat
    | _ => none

/-- The instants that accepted skipshots skip, in order. -/
def skips (judged : List (Judged α)) : List α :=
  ascending <| judged.filterMap fun j =>
    match j.verdict with
    | .cued skips => skips
    | _ => none

/-- The times of the beats whose verdicts pass a test. -/
def timesOf (test : Verdict α → Bool) (judged : List (Judged α)) : List α :=
  (judged.filter (test ·.verdict)).map (·.beat.time)

end Judged

/-- The times of the accepted beats that disagree, in how far they land, with one at the same time;
of those, the ones that count as the given kind. -/
def overlaps (accepted : List (Beat α)) (kind : ShotKind) : List α :=
  let times := accepted.map (·.time)
  accepted.flatMap fun beat =>
    ((matching times beat.time).filterMap (accepted[·]?)).filterMap fun other =>
      if almostEqual other.shift beat.shift then none
      else if overlapKind beat other = kind then some beat.time
      else none

/-- Some entry of a sorted list equals a time up to tolerance. -/
def isIn (times : List α) (time : α) : Bool :=
  !(matching times time).isEmpty

/-- Finds what is wrong between beats and expected beats, which are sorted by time. -/
def checkBeats (beats : List (Beat α)) (expected : List (ExpectedBeat α)) : Findings α :=
  let judged := Judged.ofBeats beats expected
  let instants := expected.map (·.time)
  let accepted := Judged.accepted judged
  let hits := accepted.map (·.time)
  let landings := ascending (accepted.map (·.landing))
  let skips := Judged.skips judged
  let found : FindingKind → List α
    | .unexpectedSkipshot => Judged.timesOf (· matches .unexpectedSkipshot) judged
    | .overlappingSkipshot => Judged.timesOf (· matches .overlappingSkipshot) judged
    | .unexpectedFreezeshot => Judged.timesOf (· matches .unexpectedShot .freeze) judged
    | .overlappingFreezeshot => overlaps accepted .freeze
    | .unexpectedBurnshot => Judged.timesOf (· matches .unexpectedShot .burn) judged
    | .overlappingBurnshot => overlaps accepted .burn
    | .uncuedHit => (Judged.timesOf (· matches .uncued) judged).filter (!isIn landings ·)
    | .skippedHit => instants.filter fun t => isIn hits t && isIn skips t
    | .missingHit => instants.filter fun t => !isIn hits t && !isIn skips t
    | _ => []
  ⟨fun kind => sortedTimes (found kind)⟩

end CueCheck
