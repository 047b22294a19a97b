import CueCheck.RateTable.Position
import Mathlib

/-!
# Shown positions

The beat of a position is shown as a short decimal, and it lies within half a thousandth of the beat
that it stands for.

- **Short decimals** (`IsShortDecimal`): at most three digits after the point, none of them a
  trailing zero, and no point without digits after it.
- **Writing** (`isShortDecimal_decimalText`): a number of thousandths is written as one.
- **Rounding** (`ofBarBeat_rat`, `thousandths_near`): over exact rationals a beat is rounded once.
-/

namespace CueCheck

/-! ## Short decimals -/

/-- A decimal with at most three digits after the point, of which the last is not zero, and its
value. -/
inductive IsShortDecimal : String → ℚ → Prop
  | whole (n : ℕ) : IsShortDecimal (toString n) n
  | fraction (n : ℕ) {digits : List Char} (nonempty : digits ≠ []) (short : digits.length ≤ 3)
      (decimal : ∀ c ∈ digits, c.isDigit = true) (trimmed : digits.getLast? ≠ some '0') :
      IsShortDecimal (toString n ++ "." ++ String.ofList digits)
        (n + Nat.ofDigitChars 10 digits 0 / 10 ^ digits.length)

namespace Position

/-! ## Writing -/

theorem toString_of_lt_ten {d : ℕ} (h : d < 10) : toString d = String.ofList [d.digitChar] :=
  congrArg String.ofList (Nat.toDigits_of_lt_base h)

/-- Digit characters are read as the digits that they stand for. -/
theorem ofDigitChars_map_digitChar {digits : List ℕ} (h : ∀ d ∈ digits, d < 10) (start : ℕ) :
    Nat.ofDigitChars 10 (digits.map Nat.digitChar) start =
      digits.foldl (fun value d => 10 * value + d) start := by
  induction digits generalizing start with
  | nil => rfl
  | cons d digits ih =>
    obtain ⟨hd, h⟩ := List.forall_mem_cons.mp h
    rw [List.map_cons, Nat.ofDigitChars_cons, ih h, Nat.toNat_digitChar_of_lt_ten hd,
      List.foldl_cons]
    congr 1
    simp

/-- The first of a number's three digits after the point are its fraction if the rest are zeros. -/
theorem isShortDecimal_digits (whole : ℕ) {digits : List ℕ} (nonempty : digits ≠ [])
    (short : digits.length ≤ 3) (decimal : ∀ d ∈ digits, d < 10)
    (trimmed : digits.getLast? ≠ some 0) {n : ℕ}
    (value : n * 10 ^ digits.length = 1000 * digits.foldl (fun value d => 10 * value + d) 0) :
    IsShortDecimal (toString whole ++ "." ++ String.ofList (digits.map Nat.digitChar))
      (whole + n / 1000) := by
  have fraction : (n / 1000 : ℚ) = Nat.ofDigitChars 10 (digits.map Nat.digitChar) 0 /
      10 ^ (digits.map Nat.digitChar).length := by
    rw [ofDigitChars_map_digitChar decimal, List.length_map, div_eq_div_iff (by norm_num)
      (by positivity)]
    exact_mod_cast value.trans (mul_comm _ _)
  rw [fraction]
  refine .fraction whole (mt List.map_eq_nil_iff.mp nonempty) (by rwa [List.length_map]) ?_ ?_
  · intro c mem
    obtain ⟨d, listed, rfl⟩ := List.mem_map.mp mem
    exact Nat.isDigit_digitChar.trans (decide_eq_true (decimal d listed))
  · rw [List.getLast?_map]
    intro zero
    obtain ⟨d, last, hd⟩ := Option.map_eq_some_iff.mp zero
    exact trimmed (last.trans (congrArg some (Nat.digitChar_eq_zero.mp hd)))

theorem isShortDecimal_fractionText (whole : ℕ) {n : ℕ} (h : n < 1000) :
    IsShortDecimal (toString whole ++ fractionText n) (whole + n / 1000) := by
  have first := toString_of_lt_ten (d := n / 100) (by omega)
  have second := toString_of_lt_ten (d := n / 10 % 10) (by omega)
  have third := toString_of_lt_ten (d := n % 10) (by omega)
  unfold fractionText
  split_ifs with none hundreds tens
  · rw [none, String.append_empty, Nat.cast_zero, zero_div, add_zero]
    exact .whole whole
  · have text : toString whole ++ ("." ++ toString (n / 100)) =
        toString whole ++ "." ++ String.ofList ([n / 100].map Nat.digitChar) := by
      rw [first, String.append_assoc]
      rfl
    rw [text]
    refine isShortDecimal_digits whole ?_ ?_ ?_ ?_ ?_ <;> simp <;> omega
  · have text : toString whole ++ ("." ++ toString (n / 100) ++ toString (n / 10 % 10)) =
        toString whole ++ "." ++ String.ofList ([n / 100, n / 10 % 10].map Nat.digitChar) := by
      rw [first, second, String.append_assoc, ← String.ofList_append, String.append_assoc]
      rfl
    rw [text]
    refine isShortDecimal_digits whole ?_ ?_ ?_ ?_ ?_ <;> simp <;> omega
  · have text : toString whole ++
        ("." ++ toString (n / 100) ++ toString (n / 10 % 10) ++ toString (n % 10)) =
        toString whole ++ "." ++
          String.ofList ([n / 100, n / 10 % 10, n % 10].map Nat.digitChar) := by
      rw [first, second, third, String.append_assoc, String.append_assoc, ← String.ofList_append,
        ← String.ofList_append, String.append_assoc]
      rfl
    rw [text]
    refine isShortDecimal_digits whole ?_ ?_ ?_ ?_ ?_ <;> simp <;> omega

/-- A number of thousandths is written as a short decimal. -/
theorem isShortDecimal_decimalText {thousandths : ℤ} (h : 0 ≤ thousandths) :
    IsShortDecimal (decimalText thousandths) (thousandths / 1000) := by
  obtain ⟨n, rfl⟩ := Int.eq_ofNat_of_zero_le h
  have split : ((n : ℤ) : ℚ) / 1000 = (n / 1000 : ℕ) + (n % 1000 : ℕ) / 1000 := by
    have parts : (n : ℚ) = 1000 * (n / 1000 : ℕ) + (n % 1000 : ℕ) := by
      exact_mod_cast (Nat.div_add_mod n 1000).symm
    rw [Int.cast_natCast, parts]
    field_simp
  have text : decimalText n = toString (n / 1000) ++ fractionText (n % 1000) := by
    unfold decimalText
    rw [if_neg (not_lt.mpr h)]
    exact congrArg (· ++ _) String.empty_append
  rw [split, text]
  exact isShortDecimal_fractionText _ (Nat.mod_lt _ (by norm_num))

/-! ## Rounding -/

theorem scalarOfThousandths_rat (n : ℤ) : (scalarOfThousandths n : ℚ) = n / 1000 := by
  have magnitude : (Scalar.ofDecimal n.natAbs (-3) : ℚ) = (n.natAbs : ℚ) / 1000 := by
    show mkRat n.natAbs 1000 = _
    rw [Rat.mkRat_eq_div, Int.cast_natCast]
    rfl
  unfold scalarOfThousandths
  rw [magnitude]
  split
  · rename_i negative
    rw [Nat.cast_natAbs, abs_of_neg negative, Int.cast_neg, neg_div, neg_neg]
  · rename_i negative
    rw [Nat.cast_natAbs, abs_of_nonneg (not_lt.mp negative)]

/-- Over exact rationals the rounded beat has its thousandths exactly, so it is rounded once. -/
theorem ofBarBeat_rat (bar : ℤ) (beat : ℚ) :
    ofBarBeat bar beat = .ok ⟨bar + 1, roundHalfEven ((beat + 1) * 1000)⟩ := by
  have shown (n : ℤ) : roundHalfEven ((scalarOfThousandths n : ℚ) * 1000) = n := by
    rw [scalarOfThousandths_rat, div_mul_cancel₀ _ (by norm_num), roundHalfEven_intCast]
  show Except.ok (Position.mk (bar + 1) (roundHalfEven
    ((scalarOfThousandths (roundHalfEven ((beat + 1) * 1000)) : ℚ) * 1000))) = _
  rw [shown]

theorem roundHalfEven_nonneg {q : ℚ} (h : 0 ≤ q) : 0 ≤ roundHalfEven q := by
  have near := (roundHalfEven_half q).1
  have above : (-1 : ℚ) < roundHalfEven q := by linarith
  have : -1 < roundHalfEven q := by exact_mod_cast above
  omega

/-- A beat counted from zero is shown one higher, and not more than half a thousandth away. -/
theorem thousandths_near (beat : ℚ) :
    |(roundHalfEven ((beat + 1) * 1000) / 1000 - 1 : ℚ) - beat| ≤ 1 / 2000 := by
  obtain ⟨below, above⟩ := roundHalfEven_half ((beat + 1) * 1000)
  rw [abs_le]
  constructor <;> linarith

end Position

end CueCheck
