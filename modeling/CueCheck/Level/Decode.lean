import CueCheck.Level
import CueCheck.Level.FreeTime
import CueCheck.LevelText.Reader

/-!
# Decoding a level

The events that take effect are gone through by bar. Each adds its part to the level; only free-time
beats wait for later events.

* `Event.place` is one event, `placeAll` all of them.
* `Level.ofMembers` decodes a level object, `Level.ofText` a level text, `Level.ofFile` the contents
  of a level file.
-/

namespace CueCheck

variable {α : Type} [Scalar α]

/-- The free-time beats that wait, in the order in which they were added. -/
abbrev Waiting (α : Type) := List (FreeTime α)

/-- What an event adds to a level, and which free-time beats wait after it. Events that are not said
or final count only in an enabled row. -/
def Event.place (timeline : Timeline α) (enabled : List (Name α)) (waiting : Waiting α)
    (event : Event α) : Except LevelError (Waiting α × Part α) := do
  match event.kind with
  | .phrase => return (waiting, ← Part.spoken timeline event)
  | .finish => return (waiting, Part.finish timeline event)
  | kind =>
    let row ← rowName event
    if row.isIn enabled then
      match kind with
      | .oneshot => return (waiting, ← Part.oneshot timeline event)
      | .classic => return (waiting, Part.classic timeline event)
      | .freeTime =>
        let (added, part) ← FreeTime.add timeline row event
        return (waiting ++ added.toList, part)
      | .pulse => FreeTime.pulseAll timeline row event waiting
      | _ => return (waiting, .none)
    else return (waiting, .none)

/-- What a list of events adds to a level, and which free-time beats wait at its end. -/
def placeAll (timeline : Timeline α) (enabled : List (Name α)) (waiting : Waiting α) :
    List (Event α) → Except LevelError (Waiting α × Part α)
  | [] => .ok (waiting, .none)
  | event :: events => do
    let (waiting, part) ← event.place timeline enabled waiting
    let (waiting, parts) ← placeAll timeline enabled waiting events
    return (waiting, part ++ parts)

namespace Level

/-- A level with all that its events add, in reporting order. -/
def ofPart (timeline : Timeline α) (part : Part α) : Level α where
  bars := timeline.bars
  tempos := timeline.tempos
  cues := sortBy Cue.precedes part.cues
  beats := sortBy Beat.precedes part.beats
  hits := ascending part.hits
  holds := sortBy Hold.precedes part.holds

/-- Decodes a level object whose events are given. -/
def ofMembers (members : Value.Members α) (entries : List (Value α)) :
    Except LevelError (Level α) := do
  let enabled ← enabledRows members
  let events := keptEvents entries
  let timeline := Timeline.ofEvents events
  let (_, part) ← placeAll timeline enabled [] events
  return ofPart timeline part

/-- Decodes a value, which must be an object with a list of events. -/
def ofValue (value : Value α) : Except LevelError (Level α) :=
  match value with
  | .object members =>
    match Value.get members "events" with
    | .array entries => ofMembers members entries
    | _ => .error .noEvents
  | _ => .error .noEvents

/-- Decodes a level text. -/
def ofText (text : List Char) : Except LevelError (Level α) :=
  ofValue (LevelText.decode text)

end Level

/-! ## Files -/

/-- A text with every line end as a line feed: a carriage return, with the line feed after it if
there is one, ends a line too. -/
def unifyLineEnds : List Char → List Char
  | '\r' :: '\n' :: rest => '\n' :: unifyLineEnds rest
  | '\r' :: rest => '\n' :: unifyLineEnds rest
  | c :: rest => c :: unifyLineEnds rest
  | [] => []

/-- The text of a file's contents: without a byte-order mark, and with unified line ends. -/
def textOfFile (contents : List Char) : List Char :=
  unifyLineEnds (LevelText.dropMark contents)

/-- Why a file holds no level. -/
inductive FileError where
  | missing
  | noLevel (why : LevelError)
deriving DecidableEq, Repr

/-- Decodes the contents of a file, if there is a file. -/
def Level.ofFile (contents : Option (List Char)) : Except FileError (Level α) :=
  match contents with
  | none => .error .missing
  | some contents => (ofText (textOfFile contents)).mapError .noLevel

end CueCheck
