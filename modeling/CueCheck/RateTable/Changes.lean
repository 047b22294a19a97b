import CueCheck.RateTable
import CueCheck.Tolerance

/-!
# Rate tables from authored changes

A level authors rate changes in any order, several at one key, and some that mean nothing. The
table keeps the last valid rate of each key, ascending, and has no row that repeats the rate before
it.

* `RateTable.ofChanges` accumulates the changes.
* `RateTable.ofBars` and `RateTable.ofTempos` are the two tables of a level; a tempo of `bpm` beats
  in a minute is `60 / bpm` seconds in a beat.
-/

namespace CueCheck

open Scalar

/-- A rate that holds from a key on. -/
structure RateChange (α : Type) where
  key : α
  rate : α
deriving Repr

variable {α : Type} [Scalar α]

/-- A change counts if it is not before the start and its rate is positive and finite. -/
def RateChange.isValid (change : RateChange α) : Bool :=
  !(less change.key zero || decide (change.rate ≤ zero) || !isFinite change.rate)

/-- The rates in force: one from the start on, and one from each later key on. -/
structure RateSchedule (α : Type) where
  start : α
  later : List (RateChange α)

namespace RateSchedule

/-- Puts a rate in force from a key on, in place of the rate that the key had before. -/
def put (schedule : RateSchedule α) (change : RateChange α) : RateSchedule α :=
  if change.key == zero then { schedule with start := change.rate }
  else { schedule with later := replace schedule.later }
where
  /-- Gives the first entry at this key the new rate, or adds an entry. -/
  replace : List (RateChange α) → List (RateChange α)
    | [] => [change]
    | old :: rest =>
      if old.key == change.key then { old with rate := change.rate } :: rest
      else old :: replace rest

/-- The schedule of a list of changes; invalid ones are ignored. -/
def ofChanges (changes : List (RateChange α)) (default : α) : RateSchedule α :=
  (changes.filter RateChange.isValid).foldl put ⟨default, []⟩

end RateSchedule

namespace RateTable

/-- The breakpoints after `row`, from changes in order; one that repeats the rate in force adds
none. -/
def accumulate (row : Breakpoint α) : List (RateChange α) → List (Breakpoint α)
  | [] => []
  | change :: rest =>
    if change.rate == row.rate then accumulate row rest
    else
      let next : Breakpoint α :=
        { key := change.key, value := row.value + (change.key - row.key) * row.rate
          rate := change.rate }
      next :: accumulate next rest

/-- The table of a schedule. -/
def ofSchedule (schedule : RateSchedule α) : RateTable α :=
  let first : Breakpoint α := ⟨zero, zero, schedule.start⟩
  ⟨first, accumulate first (sortBy (fun a b => less a.key b.key) schedule.later)⟩

/-- The table of a list of changes over a default rate. A later change at the same key replaces an
earlier one, and one at key zero replaces the default. -/
def ofChanges (changes : List (RateChange α)) (default : α) : RateTable α :=
  ofSchedule (RateSchedule.ofChanges changes default)

/-- Crotchets in a bar unless a level says otherwise. -/
def defaultCrotchetsPerBar : α := ofInt 8

/-- Beats in a minute unless a level says otherwise. -/
def defaultTempo : α := ofInt 100

/-- Bars to beats, from changes of the crotchets in a bar. -/
def ofBars (changes : List (RateChange α)) (crotchetsPerBar : α := defaultCrotchetsPerBar) :
    RateTable α :=
  ofChanges changes crotchetsPerBar

/-- Seconds in a beat at a tempo in beats per minute. -/
def secondsPerBeat (tempo : α) : α :=
  ofInt 60 / tempo

/-- Beats to seconds, from changes of the tempo. A tempo that is not positive is no change. -/
def ofTempos (changes : List (RateChange α)) (tempo : α := defaultTempo) : RateTable α :=
  let positive := changes.filter fun change => less zero change.rate
  ofChanges (positive.map fun change => { change with rate := secondsPerBeat change.rate })
    (secondsPerBeat tempo)

/-- The table of `ofTempos`, if the default tempo is not zero. -/
def ofTempos? (changes : List (RateChange α)) (tempo : α := defaultTempo) : Option (RateTable α) :=
  if tempo == zero then none else some (ofTempos changes tempo)

end RateTable

end CueCheck
