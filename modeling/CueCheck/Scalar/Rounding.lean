import CueCheck.Scalar

/-!
# From scalars to whole numbers

* `roundHalfEven` takes a rational to the nearest integer, a half to the even neighbour:
  `roundHalfEven_intCast` fixes integers, `roundHalfEven_half` bounds the distance.
* `Scalar.truncate` and `Scalar.roundToInt` take a scalar to an integer, and say why there is none
  for NaN and the infinities.
-/

namespace CueCheck

/-- The nearest integer; a half goes to the even neighbour. -/
def roundHalfEven (q : Rat) : Int :=
  let below := q.floor
  let rest := q - below
  if rest < 1 / 2 then below
  else if 1 / 2 < rest then below + 1
  else if below % 2 = 0 then below else below + 1

theorem roundHalfEven_intCast (n : Int) : roundHalfEven n = n := by
  have h : (n : Rat) - n = 0 := Rat.sub_self
  have pos : (0 : Rat) < 1 / 2 := by grind
  simp only [roundHalfEven, Rat.floor_intCast, h, pos, ↓reduceIte]

/-- The result is at most a half away. -/
theorem roundHalfEven_half (q : Rat) :
    q - roundHalfEven q ≤ 1 / 2 ∧ roundHalfEven q - q ≤ 1 / 2 := by
  have hlo := Rat.floor_le q
  have hhi := Rat.lt_floor_add_one q
  simp only [roundHalfEven]
  split
  · constructor <;> grind
  · split
    · constructor <;> push_cast <;> grind
    · split <;> constructor <;> (try push_cast) <;> grind

/-- Why a scalar is no integer, however it is rounded. -/
inductive NotIntegral where
  | nan
  | infinite
deriving DecidableEq, Repr

/-- The words for it. -/
def NotIntegral.message : NotIntegral → String
  | .nan => "cannot convert float NaN to integer"
  | .infinite => "cannot convert float infinity to integer"

namespace Scalar

variable {α : Type} [Scalar α]

/-- A finite scalar's value, or why it has no neighbouring integers. -/
def finiteValue (x : α) : Except NotIntegral Rat :=
  match exact x with
  | .finite q => .ok q
  | .infinite _ => .error .infinite
  | .nan => .error .nan

/-- The integer part of a scalar. -/
def truncate (x : α) : Except NotIntegral Int :=
  return cutToInt (← finiteValue x)

/-- The nearest integer, a half to the even neighbour. -/
def roundToInt (x : α) : Except NotIntegral Int :=
  return roundHalfEven (← finiteValue x)

/-- The greatest whole scalar that is not above; an infinity and NaN stay. -/
def floor (x : α) : α :=
  match exact x with
  | .finite q => ofInt q.floor
  | _ => x

/-- A zero with the sign of a given scalar. -/
def zeroLike (x : α) : α :=
  if isNegative x then -zero else zero

end Scalar

end CueCheck
