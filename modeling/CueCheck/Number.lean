import CueCheck.Scalar.Rounding

/-!
# Numbers of a level text

A level text tells integers from real numbers, and its integers stay exact until they meet a real
one. Comparison is by value, whichever of the two a number is.

* `Number.sub` and `Number.mul` by an integer are exact on integers.
* `Number.less` and `Number.same` compare exact values: `less_whole`, `same_whole`.
-/

namespace CueCheck

open Scalar

/-- A whole or a real number. -/
inductive Number (α : Type) where
  | whole (n : Int)
  | real (x : α)
deriving Repr

namespace Number

variable {α : Type} [Scalar α]

/-- The nearest scalar. -/
def toScalar : Number α → α
  | whole n => ofInt n
  | real x => x

/-- The number's place on the extended number line. -/
def exact : Number α → Extended
  | whole n => .finite n
  | real x => Scalar.exact x

/-- The number less an integer. -/
def sub : Number α → Int → Number α
  | whole n, k => whole (n - k)
  | real x, k => real (x - ofInt k)

/-- The number times an integer. -/
def mul : Number α → Int → Number α
  | whole n, k => whole (n * k)
  | real x, k => real (x * ofInt k)

/-- Zero of either kind and sign. -/
def isZero : Number α → Bool
  | whole n => n == 0
  | real x => x == zero

/-- The integer part. -/
def truncate : Number α → Except NotIntegral Int
  | whole n => .ok n
  | real x => Scalar.truncate x

/-- Strict order by value. -/
def less : Number α → Number α → Bool
  | real x, real y => Scalar.less x y
  | a, b =>
    match a.exact, b.exact with
    | .finite p, .finite q => decide (p < q)
    | .infinite negative, .finite _ => negative
    | .finite _, .infinite negative => !negative
    | _, _ => false

/-- Equality by value. -/
def same : Number α → Number α → Bool
  | real x, real y => x == y
  | a, b =>
    match a.exact, b.exact with
    | .finite p, .finite q => decide (p = q)
    | _, _ => false

theorem less_whole (m n : Int) : less (whole m : Number α) (whole n) = decide (m < n) := by
  simp only [less, exact, Rat.intCast_lt_intCast]

theorem same_whole (m n : Int) : same (whole m : Number α) (whole n) = decide (m = n) := by
  simp only [same, exact, Rat.intCast_inj]

end Number

end CueCheck
