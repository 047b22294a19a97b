import CueCheck.Scalar

/-!
# Binary64 numbers as scalars

A finite `Float` is a whole multiple of a power of two. Its exact value and its remainders are
computed on that pair of integers, so neither rounds.

* `exact_ofInt_zero`: the scalar zero is the number zero.
-/

namespace CueCheck.Binary64

open Float.Model

/-- The signed mantissa and the power of two of a finite number. -/
def dyadic? (x : Float) : Option (Int × Int) :=
  match x.toModel.unpack with
  | .zero _ => some (0, 0)
  | .finite .positive mantissa exponent _ => some (mantissa, exponent)
  | .finite .negative mantissa exponent _ => some (-mantissa, exponent)
  | _ => none

/-- The number `mantissa * 2 ^ exponent`. -/
def ratOfDyadic (mantissa exponent : Int) : Rat :=
  if 0 ≤ exponent then (mantissa * Nat.pow 2 exponent.toNat : Int)
  else mkRat mantissa (Nat.pow 2 (-exponent).toNat)

/-- The number that a `Float` is. -/
def exact (x : Float) : Extended :=
  match x.toModel.unpack with
  | .notANumber => .nan
  | .infinity .positive => .infinite false
  | .infinity .negative => .infinite true
  | _ =>
    match dyadic? x with
    | some (mantissa, exponent) => .finite (ratOfDyadic mantissa exponent)
    | none => .nan

/-- The sign bit. -/
def isNegative (x : Float) : Bool :=
  x.toBits >>> 63 == 1

/-- NaN. -/
def nan : Float := 0 / 0

/-- The remainder of two finite numbers on their common power of two; a finite number is its own
remainder by an infinite one, and all else has none. -/
def remainder (x y : Float) : Float :=
  match dyadic? x, dyadic? y with
  | some (m, e), some (n, f) =>
    if n = 0 then nan
    else
      let common := min e f
      let rest := (m * Nat.pow 2 (e - common).toNat).tmod (n * Nat.pow 2 (f - common).toNat)
      let sign : UnpackedFloat.Sign := if isNegative x then .negative else .positive
      .ofModel (.pack (.normalize .binary64 rest common sign))
  | some _, none => if y.isNaN then nan else x
  | none, _ => nan

instance : Scalar Float where
  decidableLT := Float.decLt
  decidableLE := Float.decLe
  abs := Float.abs
  isNegative := isNegative
  ofInt := Float.ofInt
  ofDecimal mantissa exponent := Float.ofScientific mantissa (exponent < 0) exponent.natAbs
  exact := exact
  remainder := remainder

theorem exact_ofInt_zero : exact (Scalar.ofInt 0) = .finite 0 := by decide +kernel

end CueCheck.Binary64
