import CueCheck.Bisection
import CueCheck.Scalar

/-!
# Equality of times under a relative tolerance

Times are compared up to one part in about two thousand of their size, so precision fades with
magnitude and two zeros are equal. The relation is reflexive and symmetric but not transitive.

* `almostEqual` is the relation; `includes` looks a time up under it.
* `collapseBy` drops repeats of the entry kept last; `sortedTimes` reports times in order without
  repeats.
* `window` bounds the places of a sorted list that can match a time, `matching` keeps those that do.
-/

namespace CueCheck

open Scalar (abs less ofInt)

variable {α : Type} [Scalar α]

/-- Equal up to tolerance: the distance is at most `1 / 4096` of the two magnitudes together. -/
def almostEqual (a b : α) : Bool :=
  decide (abs (a - b) * ofInt 4096 ≤ abs a + abs b)

/-- Some entry equals the value up to tolerance. -/
def includes (values : List α) (value : α) : Bool :=
  values.any (almostEqual · value)

/-- Drops each entry that is the same as the one kept last. -/
def collapseBy {β : Type} (same : β → β → Bool) : List β → List β
  | [] => []
  | first :: rest => first :: after first rest
where
  /-- The entries to keep after `last` was kept. -/
  after (last : β) : List β → List β
    | [] => []
    | next :: rest => if same last next then after last rest else next :: after next rest

/-- Entries in ascending order by `lt`; entries of which neither is less keep their order. -/
def sortBy {β : Type} (lt : β → β → Bool) (entries : List β) : List β :=
  entries.mergeSort fun x y => !lt y x

/-- Times in ascending order. -/
def ascending (times : List α) : List α :=
  sortBy less times

/-- Times in ascending order, each repeat up to tolerance dropped. -/
def sortedTimes (times : List α) : List α :=
  collapseBy almostEqual (ascending times)

/-! ## Looking a time up in a sorted list -/

/-- A range of places: from `start` up to, not including, `stop`. -/
structure Window where
  start : Nat
  stop : Nat
deriving DecidableEq, Repr

/-- The places of a window, in order. -/
def Window.places (w : Window) : List Nat :=
  List.range' w.start (w.stop - w.start)

/-- How far from a time a time may lie that is equal to it up to tolerance: twice the magnitude over
4095, and a billionth of that more for rounding. -/
def searchRadius (value : α) : α :=
  let radius := ofInt 2 * abs value / ofInt 4095
  radius + radius * (ofInt 1 / ofInt 1000000000)

/-- The places of a sorted list that may hold a time equal to `value` up to tolerance. -/
def window (times : List α) (value : α) : Window where
  start := countBelow less times (value - searchRadius value)
  stop := countUpTo less times (value + searchRadius value)

/-- The places of a sorted list whose times equal `value` up to tolerance. -/
def matching (times : List α) (value : α) : List Nat :=
  (window times value).places.filter fun i =>
    match times[i]? with
    | some time => almostEqual time value
    | none => false

end CueCheck
