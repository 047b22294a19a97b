import CueCheck.Beat
import CueCheck.Finding

/-!
# Checking the holds of a level

No hit may come where a hold is released, and a hold has to end before the next one begins. An
overlap is reported where the earlier of the two holds begins.

* `checkHolds` compares each hold with the next one only, in order of hit and release.
-/

namespace CueCheck

open Scalar

variable {α : Type} [Scalar α]

/-- The later hold begins before the earlier one ends, or then. -/
def Hold.runsInto (earlier later : Hold α) : Bool :=
  less later.hit earlier.release || almostEqual later.hit earlier.release

/-- The hits of the holds that run into the one after them. -/
def overlappingHits : List (Hold α) → List α
  | hold :: next :: rest =>
    if hold.runsInto next then hold.hit :: overlappingHits (next :: rest)
    else overlappingHits (next :: rest)
  | _ => []

/-- Finds what is wrong with holds among the hits of a level. -/
def checkHolds (hits : List α) (holds : List (Hold α)) : Findings α :=
  let hitTimes := ascending hits
  let ordered := sortBy Hold.precedes holds
  ⟨fun
    | .hitOnHoldRelease =>
      sortedTimes ((ordered.map (·.release)).filter fun t => !(matching hitTimes t).isEmpty)
    | .overlappingHold => sortedTimes (overlappingHits ordered)
    | _ => []⟩

end CueCheck
