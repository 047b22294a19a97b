/-!
# Options of a check
-/

namespace CueCheck

/-- What a check may be told about how cues are meant. -/
structure Options where
  /-- All voices count as one. -/
  ignoreVoices : Bool := false
  /-- A counted pulse ends a running pattern. -/
  interruptible : Bool := false
  /-- Two or more beats of a pulse fall as a triangle. -/
  triangles : Bool := false
deriving DecidableEq, Repr

end CueCheck
