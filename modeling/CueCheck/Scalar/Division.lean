import CueCheck.Scalar.Rounding

/-!
# Floored division

`Scalar.divMod?` splits a scalar into a whole number of divisors and a rest that lies between zero
and the divisor. It starts from the exact remainder, so the rest is right even where the quotient
rounds.

* `divMod?_eq_none_iff_rat`: over the rationals only a zero divisor has no answer.
-/

namespace CueCheck.Scalar

variable {α : Type} [Scalar α]

/-- The whole part of a quotient that is a whole number up to rounding: its floor, or the next one
where the floor falls more than a half short. -/
def wholeQuotient (quotient : α) : α :=
  let whole := floor quotient
  if ofInt 1 / ofInt 2 < quotient - whole then whole + ofInt 1 else whole

/-- How often `y` goes into `x`, rounded down, and the rest, which has the sign of `y`. Both zeros
keep a sign: the rest that of the divisor, the quotient that of the fraction. -/
def divMod? (x y : α) : Option (α × α) :=
  if y == zero then none
  else
    let cut := remainder x y
    let quotient := (x - cut) / y
    let (quotient, rest) :=
      if cut == zero then (quotient, zeroLike y)
      else if decide (y < zero) != decide (cut < zero) then (quotient - ofInt 1, cut + y)
      else (quotient, cut)
    some (if quotient == zero then zeroLike (x / y) else wholeQuotient quotient, rest)

theorem divMod?_eq_none_iff_rat (x y : Rat) : divMod? x y = none ↔ y = 0 := by
  have hz : (zero : Rat) = 0 := rfl
  unfold divMod?
  split
  · rename_i h
    simpa [hz] using (show y = 0 from eq_of_beq h)
  · rename_i h
    simp only [reduceCtorEq, false_iff]
    exact fun hy => h (by rw [hy, hz]; exact BEq.rfl)

end CueCheck.Scalar
