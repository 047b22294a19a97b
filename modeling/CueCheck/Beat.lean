import CueCheck.Scalar

/-!
# Beats and holds

The oneshot beats and the holds that a level places.

* `Beat.shift` is how far a beat's press lies from the instant that it answers, and `Beat.landing`
  is when the press comes.
-/

namespace CueCheck

open Scalar

/-- Whether a shot lands after the cued instant or before it. -/
inductive ShotKind where
  | freeze
  | burn
deriving DecidableEq, Repr

/-- A shot that lands off the cued instant by `delay`. Its pulse comes `interval` before it
lands. -/
structure Shot (α : Type) where
  kind : ShotKind
  interval : α
  delay : α
deriving Repr

/-- A beat that answers the cued instant `time`. A skipshot also skips the next one. -/
structure Beat (α : Type) where
  time : α
  skipshot : Bool := false
  shot? : Option (Shot α) := none
deriving Repr

/-- A press held from `hit` to `release`. -/
structure Hold (α : Type) where
  hit : α
  release : α
deriving Repr

variable {α : Type} [Scalar α]

/-- How far a shot lands after the cued instant. -/
def Shot.shift (shot : Shot α) : α :=
  match shot.kind with
  | .freeze => shot.delay
  | .burn => -shot.delay

namespace Beat

/-- How far a beat lands after the cued instant. -/
def shift (beat : Beat α) : α :=
  match beat.shot? with
  | some shot => shot.shift
  | none => zero

/-- When the player presses. -/
def landing (beat : Beat α) : α :=
  beat.time + beat.shift

/-- The beat is a shot of a kind. -/
def isShot (kind : ShotKind) (beat : Beat α) : Bool :=
  beat.shot?.any (·.kind == kind)

end Beat

/-- Order by hit, then by release. -/
def Hold.precedes (a b : Hold α) : Bool :=
  if a.hit == b.hit then less a.release b.release else less a.hit b.hit

end CueCheck
