import CueCheck.Beat.Check
import CueCheck.Beat.Holds
import CueCheck.Cue.Playback

/-!
# Checking cues, beats and holds together

* `check` plays the cues, compares the beats with what they ask for, and checks the holds.
-/

namespace CueCheck

variable {α : Type} [Scalar α]

/-- The outcome of a check: what was found, and what the cues asked for. -/
structure CheckResult (α : Type) where
  findings : Findings α
  expected : List (ExpectedBeat α)

/-- The findings about cues. -/
def Playback.findings (playback : Playback α) : Findings α :=
  ⟨fun
    | .invalidCue => playback.invalid
    | _ => []⟩

/-- Checks cues, beats and holds. The hits are all the presses of a level; if none are given, those
of the beats. -/
def check (options : Options) (cues : List (Cue α)) (beats : List (Beat α)) (holds : List (Hold α))
    (hits : Option (List α)) : CheckResult α :=
  let playback := play options cues
  { findings :=
      playback.findings ++ checkBeats beats playback.expected ++
        checkHolds (hits.getD (beats.map (·.landing))) holds
    expected := playback.expected }

end CueCheck
