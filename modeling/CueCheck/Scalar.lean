/-!
# Scalars: the numbers that times are made of

Times, rates and offsets are *scalars*: numbers with an arithmetic, an order and an exact reading on
the extended number line. Everything that handles times is written once, over any scalar type, so
the same definitions run on binary64 numbers (`Float`, which round, overflow and have NaN) and can
be read over exact rationals (`Rat`).

* `Extended` is the extended number line; `Scalar.exact` places a scalar on it.
* `Scalar.isFinite`, `Scalar.isNegativeInfinity` are the two questions asked about that place.
* `exact_rat`: a rational is finite and its own value.
-/

namespace CueCheck

/-- A place on the extended number line, or the place of what is not a number. -/
inductive Extended where
  | finite (value : Rat)
  | infinite (negative : Bool)
  | nan
deriving DecidableEq, Repr

/-- Numbers for times. The operations of the parent classes may round; `exact` says which number a
result is. Comparisons with what is not a number are false, equality included. -/
class Scalar (α : Type) extends Add α, Sub α, Mul α, Div α, Neg α, LT α, LE α, BEq α where
  /-- Comparison is decidable. -/
  decidableLT (x y : α) : Decidable (x < y)
  /-- Weak comparison is decidable. -/
  decidableLE (x y : α) : Decidable (x ≤ y)
  /-- Magnitude. -/
  abs : α → α
  /-- The sign, which a zero may have too. -/
  isNegative : α → Bool
  /-- The scalar nearest to a whole number. -/
  ofInt : Int → α
  /-- The scalar nearest to `mantissa * 10 ^ exponent`. -/
  ofDecimal (mantissa : Nat) (exponent : Int) : α
  /-- The number that a scalar is. -/
  exact : α → Extended
  /-- What remains of the first number after taking off the second as often as it goes, towards
  zero. It is exact and has the sign of the first number. -/
  remainder : α → α → α

namespace Scalar

variable {α : Type} [Scalar α]

instance (x y : α) : Decidable (x < y) := decidableLT x y

instance (x y : α) : Decidable (x ≤ y) := decidableLE x y

/-- Neither infinite nor NaN. -/
def isFinite (x : α) : Bool :=
  match exact x with
  | .finite _ => true
  | _ => false

/-- Below every finite number. -/
def isNegativeInfinity (x : α) : Bool :=
  exact x == .infinite true

/-- Strict order as a test; NaN is neither below nor above anything. -/
def less (x y : α) : Bool :=
  decide (x < y)

/-- Strict order in which NaN comes after all numbers. -/
def lessNanLast (x y : α) : Bool :=
  less x y || (!(y == y) && x == x)

/-- Zero. -/
def zero : α := ofInt 0

end Scalar

/-! ## Exact rationals -/

/-- The exact value of `mantissa * 10 ^ exponent`. -/
def ratOfDecimal (mantissa : Nat) (exponent : Int) : Rat :=
  if 0 ≤ exponent then (mantissa * Nat.pow 10 exponent.toNat : Nat)
  else mkRat mantissa (Nat.pow 10 (-exponent).toNat)

/-- The integer part: the fraction is cut off, towards zero. -/
def cutToInt (q : Rat) : Int :=
  q.num.tdiv q.den

/-- What remains of `x` after taking off `y` as often as the integer part of `x / y` says. -/
def ratRemainder (x y : Rat) : Rat :=
  x - y * cutToInt (x / y)

instance : Scalar Rat where
  decidableLT x y := inferInstanceAs (Decidable (x < y))
  decidableLE x y := inferInstanceAs (Decidable (x ≤ y))
  abs := Rat.abs
  isNegative x := decide (x < 0)
  ofInt n := n
  ofDecimal := ratOfDecimal
  exact := .finite
  remainder := ratRemainder

namespace Scalar

@[simp] theorem exact_rat (x : Rat) : exact x = .finite x := rfl

@[simp] theorem ofInt_rat (n : Int) : (ofInt n : Rat) = n := rfl

@[simp] theorem isFinite_rat (x : Rat) : isFinite x = true := rfl

@[simp] theorem isNegativeInfinity_rat (x : Rat) : isNegativeInfinity x = false := rfl

end Scalar

end CueCheck
