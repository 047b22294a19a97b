import CueCheck.Cue.Pattern

/-!
# Runs: the beats that a pattern asks for

A pattern that is started repeats without end; the cue that ends the run says how many of its beats
are due. A counted pulse asks for single beats instead.

* `Run.term` is the instant of each beat of a run, `Run.isDue` whether it is due.
* `Run.beats` are the beats up to the first that is not due; `Run.horizon` is a number of beats
  after which a run that ends at all has ended.
* `squareBeats` are the beats of a counted pulse.
-/

namespace CueCheck

open Scalar

/-- An instant that the cues ask for, with its neighbours in the same run. The first beat of a run
has none before it, and a single beat has neither. -/
structure ExpectedBeat (α : Type) where
  time : α
  prev : Option α := none
  next : Option α := none
deriving Repr

/-- A pattern that runs from a start. -/
structure Run (α : Type) where
  start : α
  pattern : Pattern α
deriving Repr

variable {α : Type} [Scalar α]

namespace Run

/-- The instant of beat `k`, counted over all repetitions. -/
def term (run : Run α) (k : Nat) : α :=
  let n := run.pattern.offsets.length
  run.start + ofInt (k / n : Nat) * run.pattern.interval + run.pattern.offsets.getD (k % n) zero

/-- Beat `k` comes before the end, or at it up to tolerance. -/
def isDue (run : Run α) (stop : α) (k : Nat) : Bool :=
  less (run.term k) stop || almostEqual (run.term k) stop

/-- Beat `k` with the beats around it. -/
def beat (run : Run α) (k : Nat) : ExpectedBeat α where
  time := run.term k
  prev := if k = 0 then none else some (run.term (k - 1))
  next := some (run.term (k + 1))

/-- The beats from `k` on up to the first that is not due, at most `limit` of them. -/
def beatsFrom (run : Run α) (stop : α) (k : Nat) : (limit : Nat) → List (ExpectedBeat α)
  | 0 => []
  | limit + 1 => if run.isDue stop k then run.beat k :: run.beatsFrom stop (k + 1) limit else []

/-- The first beats that are due, at most `limit` of them. -/
def firstBeats (run : Run α) (stop : α) (limit : Nat) : List (ExpectedBeat α) :=
  if run.pattern.isPlayable then run.beatsFrom stop 0 limit else []

/-- The size of a scalar; an infinity counts as the power of two that bounds the finite ones. -/
def size (x : α) : Rat :=
  match exact x with
  | .finite q => q.abs
  | .infinite _ => (Nat.pow 2 1024 : Nat)
  | .nan => 0

/-- The largest of some sizes, zero if there are none. -/
def largest (sizes : List Rat) : Rat :=
  sizes.foldl (fun x y => if x < y then y else x) 0

/-- A number of beats after which the run is past the end by a multiple of every size involved. If
none of them fails to be due, none ever does. -/
def horizon (run : Run α) (stop : α) : Nat :=
  let offsets := run.pattern.offsets
  let reach := 4 * (size run.start + size stop + largest (offsets.map size))
  offsets.length * ((reach / size run.pattern.interval).ceil.toNat + 2)

/-- The beats of a run that are due. -/
def beats (run : Run α) (stop : α) : List (ExpectedBeat α) :=
  run.firstBeats stop (run.horizon stop)

end Run

/-- The beats of a counted pulse at a time: one distance apart after the pulse, where the distance
is that from get to set. As a triangle, more than one beat is spread over the half distance that
begins one and a half distances after the pulse. -/
def squareBeats (pattern : Pattern α) (time : α) (count : Int) (triangles : Bool) :
    List (ExpectedBeat α) :=
  match pattern.isPlayable, pattern.offsets with
  | true, tick :: _ =>
    if triangles && 1 < count then
      (List.range count.toNat).map fun i : Nat =>
        { time := time + tick * (ofInt 3 / ofInt 2 + ofInt i / ofInt count) }
    else (List.range' 1 count.toNat).map fun i : Nat => { time := time + tick * ofInt i }
  | _, _ => []

end CueCheck
