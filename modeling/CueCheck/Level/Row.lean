import CueCheck.Level.Error
import CueCheck.LevelText.Value

/-!
# Rows of a level

A row is named by a plain value. Names are the same if their values are equal; truth values are the
numbers one and zero.

* `enabledRows` are the names of the rows whose beats sound.
-/

namespace CueCheck

/-- A value that can name something. -/
inductive Name (α : Type) where
  | null
  | number (n : Number α)
  | text (t : Text)
deriving Repr

variable {α : Type} [Scalar α]

/-- Equal values. -/
def Name.same : Name α → Name α → Bool
  | null, null => true
  | number m, number n => m.same n
  | text s, text t => s == t
  | _, _ => false

omit [Scalar α] in
/-- The name that a value is; arrays and objects are none. -/
def Value.name : Value α → Except LevelError (Name α)
  | .null => .ok .null
  | .bool b => .ok (.number (.whole (if b then 1 else 0)))
  | .number n => .ok (.number n)
  | .text t => .ok (.text t)
  | .array _ | .object _ => .error .compoundName

omit [Scalar α] in
/-- The row that an event or a row entry names. -/
def rowName (members : Value.Members α) : Except LevelError (Name α) :=
  (Value.get members "row").name

/-- The entries of the rows of a level. Rows that are not set have none, nor have a string or an
object. -/
def rowEntries (level : Value.Members α) : Except LevelError (List (Value α)) :=
  let rows := Value.get level "rows"
  if rows.isTruthy then
    match rows with
    | .array entries => .ok entries
    | .text _ | .object _ => .ok []
    | _ => .error .rowsWithoutEntries
  else .ok []

/-- The names of the rows that are not muted. -/
def enabledRows (level : Value.Members α) : Except LevelError (List (Name α)) := do
  let rows := (← rowEntries level).filterMap Value.members?
  (rows.filter fun row => !Value.hasTruthy row "muteBeats").mapM rowName

/-- A name is among others. -/
def Name.isIn (names : List (Name α)) (name : Name α) : Bool :=
  names.any (·.same name)

end CueCheck
