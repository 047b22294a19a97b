import CueCheck.Bisection
import CueCheck.Scalar.Division

/-!
# Rate tables: piecewise-linear conversion

A rate table converts a key to the value accumulated up to it, at rates that change at breakpoints:
bars to beats with the crotchets in a bar as rates, beats to seconds with the seconds in a beat as
rates. Bars and beats count from zero here.

* `RateTable.forward` and `RateTable.inverse` convert both ways with the row in force; keys before
  the first row use the first row.
* `RateTable.split` gives the whole key that contains a value and the rest of the value within it.
* `RateTable.ofRows?` accepts exactly the row lists that begin at the origin.
-/

namespace CueCheck

open Scalar

/-- From `key` on, where `value` has accumulated, each unit of key adds `rate`. -/
structure Breakpoint (α : Type) where
  key : α
  value : α
  rate : α
deriving Repr

/-- Breakpoints in ascending order. There is always a first one, so each key has a rate. -/
structure RateTable (α : Type) where
  first : Breakpoint α
  later : List (Breakpoint α)
deriving Repr

variable {α : Type} [Scalar α]

/-- The same key, value and rate, as numbers. -/
instance : BEq (Breakpoint α) where
  beq a b := a.key == b.key && a.value == b.value && a.rate == b.rate

/-- Why a position has no whole key or beat. -/
inductive SplitError where
  | zeroRate
  | notIntegral (why : NotIntegral)
deriving DecidableEq, Repr

namespace RateTable

/-- All breakpoints of a table. -/
def rows (table : RateTable α) : List (Breakpoint α) :=
  table.first :: table.later

/-- The same rows, as numbers. -/
instance : BEq (RateTable α) where
  beq a b := a.rows == b.rows

/-- The table with the given rows, the first of which must be at the origin. -/
def ofRows? : List (Breakpoint α) → Option (RateTable α)
  | first :: later => if first.key == zero && first.value == zero then some ⟨first, later⟩ else none
  | [] => none

/-- The last row whose coordinate is not above `x`, or the first row if there is none. -/
def rowAt (coordinate : Breakpoint α → α) (table : RateTable α) (x : α) : Breakpoint α :=
  table.rows.getD (countUpTo lessNanLast (table.rows.map coordinate) x - 1) table.first

/-- The row in force at a key. -/
def rowByKey : RateTable α → α → Breakpoint α :=
  rowAt Breakpoint.key

/-- The row in force where a value has accumulated. -/
def rowByValue : RateTable α → α → Breakpoint α :=
  rowAt Breakpoint.value

/-- The rate in force at a key. -/
def rateAt (table : RateTable α) (key : α) : α :=
  (table.rowByKey key).rate

/-- The value accumulated up to a key. -/
def forward (table : RateTable α) (key : α) : α :=
  let row := table.rowByKey key
  row.value + (key - row.key) * row.rate

/-- The key up to which a value accumulates. -/
def inverse (table : RateTable α) (value : α) : α :=
  let row := table.rowByValue value
  row.key + (value - row.value) / row.rate

/-- The whole key within which a value falls, and how much of the value lies within it. -/
def split (table : RateTable α) (value : α) : Except SplitError (Int × α) :=
  let row := table.rowByValue value
  match divMod? (value - row.value) row.rate with
  | none => .error .zeroRate
  | some (wholes, rest) =>
    match truncate (row.key + wholes) with
    | .ok key => .ok (key, rest)
    | .error why => .error (.notIntegral why)

theorem ofRows?_eq_some_iff {rows : List (Breakpoint α)} {table : RateTable α} :
    ofRows? rows = some table ↔
      table.rows = rows ∧ (table.first.key == zero && table.first.value == zero) = true := by
  cases rows with
  | nil => simp [ofRows?, RateTable.rows]
  | cons first later =>
    obtain ⟨f, l⟩ := table
    simp only [ofRows?, RateTable.rows, List.cons.injEq]
    split <;> rename_i h
    · simp only [Option.some.injEq, mk.injEq]
      constructor
      · rintro ⟨rfl, rfl⟩; exact ⟨⟨rfl, rfl⟩, h⟩
      · rintro ⟨⟨rfl, rfl⟩, _⟩; exact ⟨rfl, rfl⟩
    · simp only [reduceCtorEq, false_iff]
      rintro ⟨⟨rfl, rfl⟩, h'⟩
      exact h h'

end RateTable

end CueCheck
