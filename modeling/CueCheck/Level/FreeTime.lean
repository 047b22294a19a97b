import CueCheck.Level.Part

/-!
# Free-time beats

A free-time beat waits until the pulses on its row have brought it to the pulse it is pressed on.

* `FreeTime.pulse` moves one waiting beat on, `pulseAll` all those of a row.
-/

namespace CueCheck

open Scalar

/-- A free-time beat that waits for pulses. -/
structure FreeTime (α : Type) where
  row : Name α
  /-- What takes a bar and beat counted in bars of `crotchets` to a position. -/
  offset : α
  /-- The beats in the bar in which the beat was added. -/
  crotchets : α
  /-- Where the beat was added. -/
  beat : α
  /-- The pulse that it has come to. -/
  count : Int

variable {α : Type} [Scalar α]

/-- What a pulse does to a beat that waits. -/
inductive PulseOutcome (α : Type) where
  | waits (beat : FreeTime α)
  | removed
  | lands (position : α)

/-- What an event's pulse may ask for. -/
inductive PulseAction where
  | advance
  | goBack
  | remove
  | setTo (count : Int)

/-- What an event's pulse asks for. -/
def PulseAction.ofEvent (event : Event α) : Except LevelError PulseAction :=
  let action := Value.get event "action"
  if action.isText "Remove" then .ok .remove
  else if action.isText "Decrement" then .ok .goBack
  else if action.isText "Custom" then
    match (Value.getNumber event "customPulse" (.whole 0)).truncate with
    | .ok count => .ok (.setTo count)
    | .error why => .error (.notIntegral why)
  else .ok .advance

/-- The pulse that a beat comes to, unless it is removed. -/
def PulseAction.next? (count : Int) : PulseAction → Option Int
  | .advance => some (count + 1)
  | .goBack => some (max (count - 1) 0)
  | .remove => none
  | .setTo count => some count

namespace FreeTime

/-- Adds a free-time beat: it is pressed at once if it starts on the last pulse, else it waits. -/
def add (timeline : Timeline α) (row : Name α) (event : Event α) :
    Except LevelError (Option (FreeTime α) × Part α) :=
  match (Value.getNumber event "pulse" (.whole 0)).truncate with
  | .error why => .error (.notIntegral why)
  | .ok count =>
    let beat := timeline.beatOf event
    if count = Part.hitPulse then
      .ok (none, Part.press timeline beat (Value.getNumber event "hold" (.whole 0)))
    else
      let crotchets := timeline.crotchetsOf event
      .ok
        (some
          { row, crotchets, beat, count
            offset := beat - (event.bar.toScalar * crotchets + event.beatInBar.toScalar) },
          .none)

/-- Where an event stands, counted in the bars in which the beat was added. -/
def positionOf (waiting : FreeTime α) (event : Event α) : α :=
  waiting.offset + event.bar.toScalar * waiting.crotchets + event.beatInBar.toScalar

/-- A pulse on the row of a beat. It counts only after the beat was added. -/
def pulse (waiting : FreeTime α) (event : Event α) : Except LevelError (PulseOutcome α) :=
  let position := waiting.positionOf event
  if less waiting.beat position then
    match PulseAction.ofEvent event with
    | .error e => .error e
    | .ok action =>
      match action.next? waiting.count with
      | none => .ok .removed
      | some count =>
        if count = Part.hitPulse then .ok (.lands position)
        else .ok (.waits { waiting with count })
  else .ok (.waits waiting)

/-- A pulse on a row: the beats that still wait, and the presses of those that land. -/
def pulseAll (timeline : Timeline α) (row : Name α) (event : Event α) :
    List (FreeTime α) → Except LevelError (List (FreeTime α) × Part α)
  | [] => .ok ([], .none)
  | waiting :: others => do
    if waiting.row.same row then
      let outcome ← waiting.pulse event
      let (still, part) ← pulseAll timeline row event others
      match outcome with
      | .waits waiting => return (waiting :: still, part)
      | .removed => return (still, part)
      | .lands position =>
        let press := Part.press timeline position (Value.getNumber event "hold" (.whole 0))
        return (still, press ++ part)
    else
      let (still, part) ← pulseAll timeline row event others
      return (waiting :: still, part)

end FreeTime

end CueCheck
