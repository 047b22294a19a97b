import CueCheck.Cue.Run
import CueCheck.Options

/-!
# Playback: the beats that all cues together ask for

Each voice goes through its cues on its own (`Source.step`): markers gather until a go or a pulse
closes them, a go starts the pattern that plays, a stop ends it. What a cue brings about is an
`Emission`: expected beats, and the time of a cue whose markers lay out no pattern.

* `emissions` runs a list of cues from given states and `states` gives the states that it leaves;
  `emissions_append` runs a list in two parts.
* `play` puts the emissions in order and drops repeats.
-/

namespace CueCheck

open Scalar

/-- What one voice has said so far. -/
structure Source (α : Type) where
  /-- When the running pattern started, if one runs. -/
  start? : Option α
  /-- The pattern confirmed last. -/
  pattern : Pattern α
  /-- The pattern that a go started; they differ once a pulse confirms another one during a run. -/
  playing : Pattern α
  /-- The markers since the last go or pulse. -/
  pending : List (Marker α)

/-- What cues bring about: beats, and times of cues that lay out no pattern. -/
structure Emission (α : Type) where
  beats : List (ExpectedBeat α)
  invalid : List α

namespace Emission

/-- Nothing. -/
def none {α : Type} : Emission α := ⟨[], []⟩

/-- One emission after another. -/
instance {α : Type} : Append (Emission α) where
  append a b := ⟨a.beats ++ b.beats, a.invalid ++ b.invalid⟩

@[simp] theorem beats_append {α : Type} (a b : Emission α) :
    (a ++ b).beats = a.beats ++ b.beats := rfl

@[simp] theorem invalid_append {α : Type} (a b : Emission α) :
    (a ++ b).invalid = a.invalid ++ b.invalid := rfl

@[simp] theorem none_append {α : Type} (a : Emission α) : none ++ a = a := rfl

theorem append_assoc {α : Type} (a b c : Emission α) : a ++ b ++ c = a ++ (b ++ c) := by
  show Emission.mk _ _ = Emission.mk _ _
  simp

end Emission

variable {α : Type} [Scalar α]

namespace Source

/-- A voice that has said nothing. -/
def silent : Source α := ⟨Option.none, .empty, .empty, []⟩

/-- The beats of the run in progress that are due by a time. -/
def dueBeats (source : Source α) (time : α) : List (ExpectedBeat α) :=
  match source.start? with
  | some start => Run.beats ⟨start, source.playing⟩ time
  | Option.none => []

/-- Takes one more marker. -/
def mark (source : Source α) (kind : MarkerKind) (time : α) : Source α :=
  { source with pending := source.pending ++ [⟨kind, time⟩] }

/-- Closes the pending markers; they are gone, whether or not they lay out a pattern. -/
def close (source : Source α) (time : α) : Option (Pattern α) × Source α :=
  (Pattern.close source.pending time source.pattern, { source with pending := [] })

/-- A stop: the run in progress plays up to it and ends. -/
def stop (source : Source α) (time : α) : Source α × Emission α :=
  ({ source with start? := Option.none }, ⟨source.dueBeats time, []⟩)

/-- A go: the run in progress plays up to it, and the pattern of the pending markers starts. With
none pending, or where they lay out no pattern, what played before starts again. -/
def go (source : Source α) (time : α) : Source α × Emission α :=
  let due := source.dueBeats time
  if source.pending.isEmpty then ({ source with start? := some time }, ⟨due, []⟩)
  else
    match source.close time with
    | (some pattern, closed) =>
      ({ closed with start? := some time, pattern := pattern, playing := pattern }, ⟨due, []⟩)
    | (Option.none, closed) => ({ closed with start? := some time }, ⟨due, [time]⟩)

/-- A counted pulse: the pending markers, or else the confirmed pattern, must make a square pattern,
whose beats it plays beside the run in progress. -/
def pulse (triangles : Bool) (source : Source α) (time : α) (count : Int) : Source α × Emission α :=
  match source.close time with
  | (some pattern, closed) =>
    if pattern.squareshot then
      ({ closed with pattern := pattern }, ⟨squareBeats pattern time count triangles, []⟩)
    else (closed, ⟨[], [time]⟩)
  | (Option.none, closed) => (closed, ⟨[], [time]⟩)

/-- What a cue does to its voice and brings about. -/
def step (options : Options) (source : Source α) (time : α) : CueKind → Source α × Emission α
  | .get => (source.mark .get time, .none)
  | .set => (source.mark .set time, .none)
  | .go => source.go time
  | .stop => source.stop time
  | .pulse count =>
    if options.interruptible then
      let (stopped, due) := source.stop time
      let (pulsed, played) := stopped.pulse options.triangles time count
      (pulsed, due ++ played)
    else source.pulse options.triangles time count

end Source

/-- The state of every voice. -/
abbrev Sources (α : Type) := Voice → Source α

namespace Sources

/-- No voice has said anything. -/
def silent : Sources α := fun _ => .silent

/-- The states after one voice's has changed. -/
def set (sources : Sources α) (voice : Voice) (source : Source α) : Sources α :=
  fun other => if other = voice then source else sources other

/-- The voice that a cue counts for. -/
def voiceOf (options : Options) (cue : Cue α) : Voice :=
  if options.ignoreVoices then .nurse else cue.voice

/-- One cue. -/
def step (options : Options) (sources : Sources α) (cue : Cue α) : Sources α × Emission α :=
  let voice := voiceOf options cue
  let (source, emission) := (sources voice).step options cue.time cue.kind
  (sources.set voice source, emission)

end Sources

/-- The states that a list of cues leaves. -/
def states (options : Options) (sources : Sources α) (cues : List (Cue α)) : Sources α :=
  cues.foldl (fun sources cue => (sources.step options cue).1) sources

/-- What a list of cues brings about, in the order of the cues. -/
def emissions (options : Options) (sources : Sources α) : List (Cue α) → Emission α
  | [] => .none
  | cue :: cues =>
    let (sources, emission) := sources.step options cue
    emission ++ emissions options sources cues

theorem emissions_append (options : Options) (sources : Sources α) (cues more : List (Cue α)) :
    emissions options sources (cues ++ more) =
      emissions options sources cues ++ emissions options (states options sources cues) more := by
  induction cues generalizing sources with
  | nil => rfl
  | cons cue cues ih =>
    show _ ++ emissions options _ (cues ++ more) = _ ++ emissions options _ cues ++ _
    rw [ih, Emission.append_assoc]
    rfl

/-! ## Order and repeats -/

namespace ExpectedBeat

/-- Order of neighbours; a missing one is like the lowest number of all. -/
def neighbourLess : Option α → Option α → Bool
  | Option.none, Option.none => false
  | Option.none, some y =>
    match exact y with
    | .finite _ => true
    | .infinite negative => !negative
    | .nan => false
  | some _, Option.none => false
  | some x, some y => less x y

/-- Neighbours that order leaves together. -/
def neighbourTies : Option α → Option α → Bool
  | Option.none, Option.none => true
  | Option.none, some y => isNegativeInfinity y
  | some x, Option.none => isNegativeInfinity x
  | some x, some y => x == y

/-- Order by time, then by the next beat, then by the one before. -/
def precedes (a b : ExpectedBeat α) : Bool :=
  if a.time == b.time then
    if neighbourTies a.next b.next then neighbourLess a.prev b.prev else neighbourLess a.next b.next
  else less a.time b.time

/-- Both missing, or equal up to tolerance. -/
def sameNeighbour : Option α → Option α → Bool
  | some x, some y => almostEqual x y
  | Option.none, Option.none => true
  | _, _ => false

/-- The same beat up to tolerance, neighbours included. -/
def same (a b : ExpectedBeat α) : Bool :=
  almostEqual a.time b.time && sameNeighbour a.prev b.prev && sameNeighbour a.next b.next

end ExpectedBeat

/-- What a list of cues asks for. -/
structure Playback (α : Type) where
  /-- The beats, by time, each once. -/
  expected : List (ExpectedBeat α)
  /-- The times of the cues that lay out no pattern. -/
  invalid : List α

/-- Emissions in order, each beat and time once. -/
def Playback.ofEmission (emission : Emission α) : Playback α where
  expected := collapseBy ExpectedBeat.same (sortBy ExpectedBeat.precedes emission.beats)
  invalid := sortedTimes emission.invalid

/-- Plays a list of cues from silence. -/
def play (options : Options) (cues : List (Cue α)) : Playback α :=
  .ofEmission (emissions options .silent cues)

end CueCheck
