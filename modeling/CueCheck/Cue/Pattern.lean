import CueCheck.Cue
import CueCheck.Tolerance

/-!
# Patterns from get and set cues

The get and set cues before a go or a pulse lay out a pattern: each set is a beat, and the pattern
repeats in the shortest period that all of them keep, up to tolerance.

* `Pattern.close` turns pending markers into a pattern.
* `period` is the number of beats in one repetition: it divides their number (`period_dvd`), and the
  beats repeat at it (`isPeriod_period`).
-/

namespace CueCheck

open Scalar

/-- Beats at `offsets` after the start of each repetition, one repetition every `interval`. -/
structure Pattern (α : Type) where
  interval : α
  offsets : List α
  /-- Each repetition is one get and one set, the only shape that a pulse can play. -/
  squareshot : Bool := false
deriving Repr

/-- Whether a marker came from a get or a set. -/
inductive MarkerKind where
  | get
  | set
deriving DecidableEq, Repr

/-- A get or set cue that no go or pulse has closed yet. -/
structure Marker (α : Type) where
  kind : MarkerKind
  time : α
deriving Repr

variable {α : Type} [Scalar α]

/-- Beat `i` recurs one repetition of `size` beats after another: it lies where beat `i % size`
does, `i / size` intervals later. -/
def recurs (offsets : List α) (size : Nat) (interval : α) (i : Nat) : Bool :=
  match offsets[i]?, offsets[i % size]? with
  | some offset, some model => almostEqual offset (model + ofInt (i / size : Nat) * interval)
  | _, _ => true

/-- The length of a repetition of `size` out of `n` beats that span `length` together. -/
def repetitionLength (length : α) (size n : Nat) : α :=
  length * ofInt size / ofInt n

/-- All beats after the first `size` recur. -/
def isPeriod (offsets : List α) (length : α) (size : Nat) : Bool :=
  let n := offsets.length
  (List.range' size (n - size)).all (recurs offsets size (repetitionLength length size n))

/-- The divisors of a number, ascending. -/
def divisors (n : Nat) : List Nat :=
  (List.range' 1 n).filter fun d => n % d == 0

/-- The least number of beats per repetition that divides their number and at which they recur. -/
def period (offsets : List α) (length : α) : Nat :=
  ((divisors offsets.length).find? (isPeriod offsets length)).getD offsets.length

theorem period_dvd (offsets : List α) (length : α) : period offsets length ∣ offsets.length := by
  unfold period
  cases h : (divisors offsets.length).find? (isPeriod offsets length) with
  | none => exact Nat.dvd_refl _
  | some d =>
    have hd := List.mem_of_find?_eq_some h
    simp only [divisors, List.mem_filter, beq_iff_eq] at hd
    exact Nat.dvd_of_mod_eq_zero hd.2

theorem isPeriod_length (offsets : List α) (length : α) :
    isPeriod offsets length offsets.length = true := by
  simp [isPeriod]

theorem isPeriod_period (offsets : List α) (length : α) :
    isPeriod offsets length (period offsets length) = true := by
  unfold period
  cases h : (divisors offsets.length).find? (isPeriod offsets length) with
  | none => exact isPeriod_length offsets length
  | some d => exact List.find?_some h

namespace Pattern

/-- The pattern that has no beats and never runs. -/
def empty : Pattern α := ⟨zero, [], false⟩

/-- There is something to play. -/
def isPlayable (pattern : Pattern α) : Bool :=
  less zero pattern.interval && !pattern.offsets.isEmpty

/-- The distances from the first marker of the markers of one kind. -/
def offsetsOf (kind : MarkerKind) (first : α) (pending : List (Marker α)) : List α :=
  (pending.filter (·.kind == kind)).map (·.time - first)

/-- Not after the start, or equal to it up to tolerance. -/
def endsAtStart (start stop : α) : Bool :=
  decide (stop - start ≤ zero) || almostEqual stop start

/-- The pattern of a lone set: one beat, with the distance to the close on either side of it. -/
def ofLoneSet (start stop : α) : Option (Pattern α) :=
  if endsAtStart start stop then none
  else some { interval := ofInt 2 * (stop - start), offsets := [stop - start], squareshot := true }

/-- The pattern of markers that begin with a get at `start`. No set may coincide with that get. -/
def ofMarkers (start stop : α) (pending : List (Marker α)) : Option (Pattern α) :=
  if endsAtStart start stop then none
  else if pending.any fun m => m.kind == .set && almostEqual m.time start then none
  else
    let length := stop - start
    let gets := offsetsOf .get start pending
    let sets := offsetsOf .set start pending
    if sets.isEmpty then some { interval := length, offsets := [] }
    else
      let size := period sets length
      let interval := repetitionLength length size sets.length
      let onRepetitions := gets.zipIdx.all fun (offset, i) =>
        almostEqual offset (ofInt i * interval)
      some
        { interval, offsets := sets.take size
          squareshot := gets.length == sets.length && onRepetitions }

/-- Closes pending markers at a time: the pattern they lay out, if they lay out one. With nothing
pending the pattern confirmed before stays, if it has an interval. -/
def close (pending : List (Marker α)) (time : α) (previous : Pattern α) : Option (Pattern α) :=
  match pending with
  | [] => if less zero previous.interval then some previous else none
  | [⟨.set, start⟩] => ofLoneSet start time
  | ⟨.set, _⟩ :: _ :: _ => none
  | ⟨.get, start⟩ :: _ => ofMarkers start time pending

end Pattern

end CueCheck
