import CueCheck.RateTable

/-!
# Positions as level editors show them

A position counts bars and beats from one and shows the beat to the thousandth, without trailing
zeros: `3-1.5` is the middle of the first beat of the third bar.

* `Position.ofBarBeat` rounds a beat, a half of a thousandth to the even neighbour.
* `Position.text` writes a position.
-/

namespace CueCheck

open Scalar

/-- A shown position: the bar's number, and the beat within the bar in thousandths. -/
structure Position where
  bar : Int
  thousandths : Int
deriving DecidableEq, Repr

namespace Position

/-- A number of thousandths as a scalar. -/
def scalarOfThousandths {α : Type} [Scalar α] (n : Int) : α :=
  let magnitude : α := ofDecimal n.natAbs (-3)
  if n < 0 then -magnitude else magnitude

/-- The position shown for a bar and a beat that count from zero. The rounded beat is itself a
scalar; what is shown is its value to the thousandth. -/
def ofBarBeat {α : Type} [Scalar α] (bar : Int) (beat : α) : Except NotIntegral Position := do
  let rounded ← roundToInt ((beat + ofInt 1) * ofInt 1000)
  let value ← finiteValue (scalarOfThousandths rounded : α)
  return { bar := bar + 1, thousandths := roundHalfEven (value * 1000) }

/-- The digits after the point of a number below one thousand, taken as thousandths: none for zero,
and no trailing zero. -/
def fractionText (n : Nat) : String :=
  if n = 0 then ""
  else if n % 100 = 0 then "." ++ toString (n / 100)
  else if n % 10 = 0 then "." ++ toString (n / 100) ++ toString (n / 10 % 10)
  else "." ++ toString (n / 100) ++ toString (n / 10 % 10) ++ toString (n % 10)

/-- A number of thousandths in decimal. -/
def decimalText (thousandths : Int) : String :=
  let sign := if thousandths < 0 then "-" else ""
  sign ++ toString (thousandths.natAbs / 1000) ++ fractionText (thousandths.natAbs % 1000)

/-- Bar and beat, joined by a hyphen. -/
def text (position : Position) : String :=
  toString position.bar ++ "-" ++ decimalText position.thousandths

end Position

end CueCheck
