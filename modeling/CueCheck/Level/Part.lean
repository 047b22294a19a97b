import CueCheck.Beat
import CueCheck.Level.Phrase
import CueCheck.Level.Row
import CueCheck.Level.Timeline

/-!
# What single events put into a level

A `Part` is what one event contributes: cues, beats, hits and holds.

* `Part.spoken` are the cues of a spoken phrase, `Part.oneshot` the beats of a repeated oneshot,
  `Part.press` a single hit or hold.
-/

namespace CueCheck

open Scalar

/-- A part of a level. -/
structure Part (α : Type) where
  cues : List (Cue α) := []
  beats : List (Beat α) := []
  hits : List α := []
  holds : List (Hold α) := []

namespace Part

/-- Nothing. -/
def none {α : Type} : Part α := {}

/-- One part and another. -/
instance {α : Type} : Append (Part α) where
  append a b := ⟨a.cues ++ b.cues, a.beats ++ b.beats, a.hits ++ b.hits, a.holds ++ b.holds⟩

variable {α : Type} [Scalar α]

/-- A hit, or a hold if it lasts: `length` is its number of beats. -/
def press (timeline : Timeline α) (beat : α) (length : Number α) : Part α :=
  let hit := timeline.time beat
  if length.isZero then { hits := [hit] }
  else { holds := [{ hit, release := timeline.time (beat + length.toScalar) }] }

/-- A value that is not set gives way to a default name. -/
def nameOr (value : Value α) (default : String) : Except LevelError (Name α) :=
  if value.isTruthy then value.name else .ok (.text (Text.ofString default))

/-- The cues of a phrase spoken by a voice from a beat on, one syllable every tick. -/
def syllables (timeline : Timeline α) (beat : α) (tick : Number α) (voice : Voice)
    (parts : List (Option CueKind)) : List (Cue α) :=
  let start := timeline.time beat
  let secondsPerBeat := timeline.secondsPerBeat beat
  parts.zipIdx.filterMap fun (part, i) => part.map fun kind =>
    { time := start + (tick.mul i).toScalar * secondsPerBeat, kind, voice }

/-- A spoken phrase. An unknown phrase says nothing. -/
def spoken (timeline : Timeline α) (event : Event α) : Except LevelError (Part α) := do
  match ← nameOr (Value.get event "phraseToSay") defaultPhrase with
  | .text phrase =>
    match phrase? phrase with
    | some parts =>
      let voice :=
        match ← nameOr (Value.get event "voiceSource") "Nurse" with
        | .text name => voiceOfName name
        | _ => .nurse
      let tick := Value.getNumber event "tick" (.whole 1)
      return { cues := syllables timeline (timeline.beatOf event) tick voice parts }
    | Option.none => return .none
  | _ => return .none

/-- The end of the level stops every voice. -/
def finish (timeline : Timeline α) (event : Event α) : Part α :=
  let time := timeline.time (timeline.beatOf event)
  { cues := Voice.all.map fun voice => { time, kind := .stop, voice } }

/-- A oneshot that is repeated: when it starts and what every repetition has in common. -/
structure Oneshot (α : Type) where
  /-- The start of the first repetition in seconds. -/
  start : α
  secondsPerBeat : α
  /-- Beats from the start of a repetition to its beat. -/
  tick : Number α
  /-- Beats from one repetition to the next. -/
  interval : Number α
  /-- Beats by which a shot is off; without any the beat is plain. -/
  delay : Number α
  shot : ShotKind
  /-- Whether the beat of the last repetition is a skipshot. -/
  skipshot : Bool
  /-- How often the oneshot is repeated after the first time. -/
  loops : Int

namespace Oneshot

/-- The oneshot that an event asks for. -/
def ofEvent (timeline : Timeline α) (event : Event α) : Except LevelError (Oneshot α) :=
  match (Value.getNumber event "loops" (.whole 0)).truncate with
  | .error why => .error (.notIntegral why)
  | .ok loops =>
    let mode := Value.get event "freezeBurnMode"
    let beat := timeline.beatOf event
    .ok
      { start := timeline.time beat
        secondsPerBeat := timeline.secondsPerBeat beat
        tick := Value.getNumber event "tick" (.whole 1)
        interval := Value.getNumber event "interval" (.whole 0)
        delay := if mode.isText "None" then .whole 0 else Value.getNumber event "delay" (.whole 0)
        shot := if mode.isText "Burnshot" then .burn else .freeze
        skipshot := Value.hasTruthy event "skipshot"
        loops }

/-- The start of a repetition. -/
def loopStart (oneshot : Oneshot α) (i : Nat) : α :=
  oneshot.start + (oneshot.interval.mul i).toScalar * oneshot.secondsPerBeat

/-- The beat of a repetition and its press. A shot lands one interval after the start of its
repetition and answers an instant that is off by the delay; a plain beat lands on the instant that
it answers. -/
def beatOfLoop (oneshot : Oneshot α) (i : Nat) : Beat α × α :=
  let start := oneshot.loopStart i
  let skipshot := oneshot.skipshot && decide ((i : Int) = oneshot.loops)
  if oneshot.delay.isZero then
    let cued := start + oneshot.tick.toScalar * oneshot.secondsPerBeat
    ({ time := cued, skipshot }, cued)
  else
    let interval := oneshot.interval.toScalar * oneshot.secondsPerBeat
    let shot : Shot α :=
      { kind := oneshot.shot, interval, delay := oneshot.delay.toScalar * oneshot.secondsPerBeat }
    let landing := start + interval
    ({ time := landing - shot.shift, skipshot, shot? := some shot }, landing)

/-- The beats of all repetitions, with their presses. -/
def beats (oneshot : Oneshot α) : List (Beat α × α) :=
  (List.range (oneshot.loops + 1).toNat).map oneshot.beatOfLoop

end Oneshot

/-- The beats of a oneshot event. -/
def oneshot (timeline : Timeline α) (event : Event α) : Except LevelError (Part α) := do
  let beats := (← Oneshot.ofEvent timeline event).beats
  return { beats := beats.map (·.1), hits := beats.map (·.2) }

/-- Classic and free-time beats are pressed on the seventh pulse. -/
def hitPulse : Int := 6

/-- The press of a classic beat, six ticks after it begins. -/
def classic (timeline : Timeline α) (event : Event α) : Part α :=
  let tick := Value.getNumber event "tick" (.whole 1)
  press timeline (timeline.beatOf event + (tick.mul hitPulse).toScalar)
    (Value.getNumber event "hold" (.whole 0))

end Part

end CueCheck
