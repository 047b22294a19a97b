import CueCheck.Beat
import CueCheck.Cue.Run

/-!
# Judging a beat

A beat has to answer an expected instant. The pulse of a shot has to sit on the instant before it,
and a skipshot needs one instant after it to skip.

* `Beat.verdict` judges one beat.
-/

namespace CueCheck

open Scalar

/-- How a beat answers the expected instants. -/
inductive Verdict (α : Type) where
  /-- It answers one; a skipshot skips the instant given. -/
  | cued (skips : Option α)
  /-- There is none at its time. -/
  | uncued
  /-- No instant before it holds the pulse of its shot. -/
  | unexpectedShot (kind : ShotKind)
  /-- There is no instant to skip. -/
  | unexpectedSkipshot
  /-- The instants to skip disagree. -/
  | overlappingSkipshot
deriving Repr

variable {α : Type} [Scalar α]

/-- The expected beats at a time, up to tolerance. -/
def expectedAt (expected : List (ExpectedBeat α)) (time : α) : List (ExpectedBeat α) :=
  (matching (expected.map (·.time)) time).filterMap (expected[·]?)

namespace Beat

/-- The pulse of a shot sits on the instant before one of the expected beats found. -/
def pulseIsCued (beat : Beat α) (shot : Shot α) (found : List (ExpectedBeat α)) : Bool :=
  found.any fun e => e.prev.any (almostEqual · (beat.landing - shot.interval))

/-- Judges a skipshot by the instants that follow the expected beats found. -/
def skipVerdict (found : List (ExpectedBeat α)) : Verdict α :=
  match found.filterMap (·.next) with
  | [] => .unexpectedSkipshot
  | first :: others =>
    if (first :: others).all (almostEqual first) then .cued (some first) else .overlappingSkipshot

/-- Judges a beat against expected beats sorted by time. -/
def verdict (beat : Beat α) (expected : List (ExpectedBeat α)) : Verdict α :=
  let found := expectedAt expected beat.time
  if found.isEmpty then .uncued
  else
    match beat.shot?.filter (!beat.pulseIsCued · found) with
    | some shot => .unexpectedShot shot.kind
    | none => if beat.skipshot then skipVerdict found else .cued none

end Beat

end CueCheck
