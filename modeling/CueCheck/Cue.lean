import CueCheck.Scalar
import CueCheck.Text.QuotedName

/-!
# Voice cues

A voice asks for beats by cues: `get` and `set` lay out a pattern, `go` starts it, `stop` ends it,
and a counted pulse plays single beats.

* `CueKind.ofName?` accepts the five kinds by name and names any other in its error.
-/

namespace CueCheck

/-- The voice that speaks a cue. -/
abbrev Voice := String

namespace Voice

/-- The voice of the nurse, who speaks unless a level says otherwise. -/
def nurse : Voice := "nurse"

/-- The second voice. -/
def ian : Voice := "ian"

/-- The voices of a level, in reporting order. -/
def all : List Voice := [nurse, ian]

end Voice

/-- What a cue asks for. -/
inductive CueKind where
  | get
  | set
  | go
  | stop
  | pulse (count : Int)
deriving DecidableEq, Repr

/-- A cue of one voice. -/
structure Cue (α : Type) where
  time : α
  kind : CueKind
  voice : Voice := Voice.nurse
deriving Repr

/-- A name that is no kind of cue. -/
structure UnknownCueKind where
  name : String
deriving DecidableEq, Repr

namespace CueKind

/-- The name of a kind. -/
def name : CueKind → String
  | get => "get"
  | set => "set"
  | go => "go"
  | stop => "stop"
  | pulse _ => "pulse"

/-- The beats that a pulse counts; the other kinds count none. -/
def count : CueKind → Int
  | pulse n => n
  | _ => 0

/-- The kind of a name; the count matters to a pulse only. -/
def ofName? (name : String) (count : Int) : Except UnknownCueKind CueKind :=
  if name = "get" then .ok get
  else if name = "set" then .ok set
  else if name = "go" then .ok go
  else if name = "stop" then .ok stop
  else if name = "pulse" then .ok (pulse count)
  else .error ⟨name⟩

theorem ofName?_name (kind : CueKind) : ofName? kind.name kind.count = .ok kind := by
  cases kind <;> rfl

end CueKind

/-- The words for an unknown kind. -/
def UnknownCueKind.message (e : UnknownCueKind) : String :=
  "Unknown cue kind: " ++ quotedName e.name

end CueCheck
