import CueCheck.Beat
import CueCheck.Cue
import CueCheck.RateTable

/-!
# Levels

What a check needs to know of a level, all times in seconds from its start.
-/

namespace CueCheck

open Scalar

/-- A decoded level. -/
structure Level (α : Type) where
  /-- Bars to beats. -/
  bars : RateTable α
  /-- Beats to seconds. -/
  tempos : RateTable α
  cues : List (Cue α)
  beats : List (Beat α)
  /-- All the presses that are not held. -/
  hits : List α
  holds : List (Hold α)

variable {α : Type} [Scalar α]

/-- The level has a burnshot. -/
def Level.hasBurnshot (level : Level α) : Bool :=
  level.beats.any (·.isShot .burn)

/-! ## Reporting order -/

/-- The place of a kind of cue among cues at one time. -/
def CueKind.rank : CueKind → Nat
  | .pulse _ => 0
  | .go => 1
  | .stop => 2
  | .get => 3
  | .set => 4

/-- Order by time, then by kind, then by count, then by voice. -/
def Cue.precedes (a b : Cue α) : Bool :=
  if a.time == b.time then
    if a.kind.rank = b.kind.rank then
      if a.kind.count = b.kind.count then Voice.all.idxOf a.voice < Voice.all.idxOf b.voice
      else a.kind.count < b.kind.count
    else a.kind.rank < b.kind.rank
  else less a.time b.time

/-- Order by time, then skipshots last, then by landing. -/
def Beat.precedes (a b : Beat α) : Bool :=
  if a.time == b.time then
    if a.skipshot = b.skipshot then less a.landing b.landing else !a.skipshot
  else less a.time b.time

end CueCheck
