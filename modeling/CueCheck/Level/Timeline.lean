import CueCheck.Level.Event
import CueCheck.RateTable.Changes

/-!
# The timeline of a level

Events stand in bars and beats that count from one. The timeline converts their positions to beats
from the start of the level, and to seconds.

* `Timeline.ofEvents` reads the bar lengths and the tempos off them.
* `Timeline.beatOf` is the position of an event in beats, `Timeline.time` that of a beat in seconds.
-/

namespace CueCheck

open Scalar

variable {α : Type} [Scalar α]

/-- Bar lengths and tempos. -/
structure Timeline (α : Type) where
  bars : RateTable α
  tempos : RateTable α

/-- The position of an event in beats from the start. -/
def beatIn (bars : RateTable α) (event : Event α) : α :=
  bars.forward (event.bar.sub 1).toScalar + (event.beatInBar.sub 1).toScalar

/-- The bar length that an event sets, if it sets one. -/
def barChange? (event : Event α) : Option (RateChange α) :=
  match event.kind with
  | .barLength =>
    some
      { key := (event.bar.sub 1).toScalar
        rate := (Value.getNumber event "crotchetsPerBar" (.whole 8)).toScalar }
  | _ => none

/-- The tempo of an event that plays a song. -/
def songTempo? (event : Event α) : Option (Number α) :=
  match event.kind with
  | .song => some (Value.getNumber event "bpm" (.real RateTable.defaultTempo))
  | _ => none

/-- The tempo that an event sets. -/
def tempo? (event : Event α) : Option (Number α) :=
  match event.kind with
  | .tempo => some (Value.getNumber event "beatsPerMinute" (.real RateTable.defaultTempo))
  | _ => songTempo? event

/-- The tempo change of an event, where it stands. -/
def tempoChange? (bars : RateTable α) (event : Event α) : Option (RateChange α) :=
  (tempo? event).map fun tempo => { key := beatIn bars event, rate := tempo.toScalar }

/-- The tempo of the first song, unless it is zero. -/
def initialTempo (events : List (Event α)) : α :=
  match events.findSome? songTempo? with
  | some tempo => if tempo.isZero then RateTable.defaultTempo else tempo.toScalar
  | none => RateTable.defaultTempo

namespace Timeline

/-- The timeline that events lay down. -/
def ofEvents (events : List (Event α)) : Timeline α :=
  let bars := RateTable.ofBars (events.filterMap barChange?)
  { bars
    tempos := RateTable.ofTempos (events.filterMap (tempoChange? bars)) (initialTempo events) }

/-- The position of an event in beats from the start. -/
def beatOf (timeline : Timeline α) (event : Event α) : α :=
  beatIn timeline.bars event

/-- A beat in seconds. -/
def time (timeline : Timeline α) (beat : α) : α :=
  timeline.tempos.forward beat

/-- The length in seconds of the beats at a position. -/
def secondsPerBeat (timeline : Timeline α) (beat : α) : α :=
  timeline.tempos.rateAt beat

/-- The beats in the bar of an event. -/
def crotchetsOf (timeline : Timeline α) (event : Event α) : α :=
  timeline.bars.rateAt (event.bar.sub 1).toScalar

end Timeline

end CueCheck
