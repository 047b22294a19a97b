import CueCheck.LevelText.Value
import CueCheck.Tolerance

/-!
# Events of a level

An event is an object of the level text. It stands in a bar and on a beat, both from one, and its
type says what it does.

* `Event.kind` is what an event does.
* `keptEvents` are the events that take effect, by bar.
-/

namespace CueCheck

/-- An event of a level: an object of the level text. -/
abbrev Event (α : Type) := Value.Members α

/-- What an event does. -/
inductive EventKind where
  /-- A voice speaks a phrase. -/
  | phrase
  /-- The level ends. -/
  | finish
  /-- A row gets a oneshot, repeated or not. -/
  | oneshot
  /-- A row gets a classic beat. -/
  | classic
  /-- A row gets a beat that waits for pulses. -/
  | freeTime
  /-- A pulse for the beats that wait on a row. -/
  | pulse
  /-- Bars get another length. -/
  | barLength
  /-- A song starts, which sets the tempo. -/
  | song
  /-- The tempo changes. -/
  | tempo
  /-- Nothing that a check needs to know. -/
  | other
deriving DecidableEq, Repr

/-- The kinds of events by the names of their types. -/
def EventKind.names : List (String × EventKind) :=
  [("SayReadyGetSetGo", .phrase), ("FinishLevel", .finish), ("AddOneshotBeat", .oneshot),
    ("AddClassicBeat", .classic), ("AddFreeTimeBeat", .freeTime), ("PulseFreeTimeBeat", .pulse),
    ("SetCrotchetsPerBar", .barLength), ("PlaySong", .song), ("SetBeatsPerMinute", .tempo)]

namespace Event

variable {α : Type}

/-- What an event does. -/
def kind (event : Event α) : EventKind :=
  match Value.get event "type" with
  | .text name => (Text.lookup EventKind.names name).getD .other
  | _ => .other

/-- The bar that an event stands in, from one. -/
def bar (event : Event α) : Number α :=
  Value.getNumber event "bar" (.whole 1)

/-- The beat within the bar that an event stands on, from one. -/
def beatInBar (event : Event α) : Number α :=
  Value.getNumber event "beat" (.whole 1)

/-- Only the value false switches an event off. -/
def isActive (event : Event α) : Bool :=
  match Value.get event "active" with
  | .bool false => false
  | _ => true

/-- An event with a condition or a tag may never run. -/
def isConditional [Scalar α] (event : Event α) : Bool :=
  Value.hasTruthy event "if" || Value.hasTruthy event "tag"

end Event

variable {α : Type} [Scalar α]

/-- The events that take effect, by bar; events in the same bar keep their order. -/
def keptEvents (entries : List (Value α)) : List (Event α) :=
  let active := (entries.filterMap Value.members?).filter Event.isActive
  (sortBy (fun a b => a.bar.less b.bar) active).filter (!·.isConditional)

end CueCheck
