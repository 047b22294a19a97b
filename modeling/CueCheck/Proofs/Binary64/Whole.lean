import CueCheck.Proofs.Binary64.Faithful
import CueCheck.Proofs.Binary64.Place
import CueCheck.Scalar.Division

/-!
# Whole numbers and floored division

The arithmetic of whole numbers up to 53 bits is exact, and so is a remainder, whatever its size.

- **Whole numbers** (`exact_ofInt`, `exact_floor`): a whole number that fits is itself, and what
  fits has a floor that fits. Up to `2 ^ 53` sums, differences and products are exact
  (`exact_add_natCast`, `exact_sub_natCast`, `exact_mul_natCast`).
- **Remainders** (`exact_remainder`): the rest of a division takes no more bits than one of the two
  numbers.
- **Floored division** (`exists_divMod?`): the rest of a floored division is exact. The quotient is
  whole, and exact below `2 ^ 53`.
-/

namespace CueCheck.Binary64

open Float.Model UnpackedFloat Scalar

variable {x y : Float} {p q v w : ℚ}

/-! ## Whole numbers -/

/-- Finite numbers are below the limit, by far more than the whole numbers up to 53 bits. -/
theorem abs_add_lt_limit (hx : exact x = .finite p) : |p| + 2 ^ 53 < limit := by
  have hlimit : ((2 : ℚ) ^ 53 - 1) * 2 ^ (971 : ℤ) + 2 ^ 53 < limit := by
    have hunit : (2 : ℚ) ^ 53 < 2 ^ (970 : ℤ) := by
      rw [← zpow_natCast]
      exact zpow_lt_zpow_right₀ one_lt_two (by decide)
    unfold limit
    rw [show (971 : ℤ) = 970 + 1 by rfl, zpow_add_one₀ two_ne_zero]
    generalize (2 : ℚ) ^ (970 : ℤ) = unit at hunit ⊢
    linarith
  rcases exact_cases hx with ⟨s, -, rfl⟩ | ⟨s, m, e, hm, -, hc, rfl⟩
  · rw [abs_zero]
    refine lt_of_le_of_lt ?_ hlimit
    gcongr
    positivity
  · rw [abs_signed s (dyadic_pos hm e).le]
    have hle := hc.le_largest
    linarith

theorem abs_lt_limit (hx : exact x = .finite p) : |p| < limit :=
  (le_add_of_nonneg_right (by positivity)).trans_lt (abs_add_lt_limit hx)

theorem two_pow_lt_limit {k : ℕ} (h : k ≤ 1022) : (2 : ℚ) ^ k < limit := by
  have hpos : (0 : ℚ) < 2 ^ (970 : ℤ) := by positivity
  calc (2 : ℚ) ^ k ≤ 2 ^ (52 + 970) := pow_le_pow_right₀ one_le_two h
    _ = 2 ^ 52 * 2 ^ (970 : ℤ) := by rw [pow_add, ← zpow_natCast 2 970]; rfl
    _ < limit := by
      unfold limit
      gcongr
      norm_num

theorem fits_natCast {n : ℕ} (h : n ≤ 2 ^ 53) : Fits n := by
  have few : |((n : ℤ) : ℚ)| ≤ 2 ^ 53 := by
    rw [Int.cast_natCast, Nat.abs_cast]
    exact_mod_cast h
  exact_mod_cast fits_intCast few

theorem fits_zero : Fits 0 := by
  exact_mod_cast fits_natCast (Nat.zero_le _)

/-- Rounding stays between whole numbers. -/
theorem IsRounding.bounds {r : ℚ} {a b : ℕ} (h : IsRounding x v)
    (hx : Binary64.exact x = .finite r)
    (low : a ≤ v) (high : v ≤ b) (few : b ≤ 2 ^ 53) : a ≤ r ∧ r ≤ b := by
  obtain ⟨r', hr', faithful⟩ := h
  obtain rfl := Extended.finite.inj (hr'.symm.trans hx)
  have le : a ≤ b := by exact_mod_cast low.trans high
  exact ⟨(faithful a (fits_natCast (le.trans few))).1 low, (faithful b (fits_natCast few)).2 high⟩

theorem Fits.whole_or_lt (h : Fits w) : (∃ n : ℤ, w = n) ∨ |w| < 2 ^ 53 := by
  obtain ⟨j, e, -, hj, rfl⟩ := h
  rcases le_or_gt 0 e with he | he
  · obtain ⟨k, rfl⟩ := Int.eq_ofNat_of_zero_le he
    exact .inl ⟨j * 2 ^ k, by push_cast; rfl⟩
  · right
    have hpos : (0 : ℚ) < 2 ^ e := by positivity
    have hhalf : (2 : ℚ) ^ e ≤ 1 / 2 :=
      (zpow_le_zpow_right₀ one_le_two (show e ≤ -1 by omega)).trans_eq (by norm_num)
    rw [abs_mul, abs_of_pos hpos]
    calc |(j : ℚ)| * 2 ^ e ≤ 2 ^ 53 * (1 / 2) := by gcongr
      _ < 2 ^ 53 := by norm_num

theorem Fits.floor (h : Fits w) (hw : 0 ≤ w) : Fits ⌊w⌋ := by
  rcases h.whole_or_lt with ⟨n, rfl⟩ | hlt
  · rwa [Int.floor_intCast]
  · rw [abs_of_nonneg hw] at hlt
    have hfloor : (0 : ℚ) ≤ ⌊w⌋ := by exact_mod_cast Int.floor_nonneg.mpr hw
    refine fits_intCast ?_
    rw [abs_of_nonneg hfloor]
    exact (Int.floor_le w).trans hlt.le

theorem natCast_lt_limit {n : ℕ} (h : n ≤ 2 ^ 53) : |(n : ℚ)| < limit := by
  rw [Nat.abs_cast]
  exact lt_of_le_of_lt (by exact_mod_cast h) (two_pow_lt_limit (show 53 ≤ 1022 by decide))

theorem exact_toFloat {n : ℕ} (h : n < 2 ^ 53) : exact n.toUInt64.toFloat = .finite n := by
  have hn : n.toUInt64.toNat = n := Nat.mod_eq_of_lt (h.trans (by decide))
  have hvalue : ((n : ℤ) : ℚ) * 2 ^ (0 : ℤ) = n := by rw [zpow_zero, mul_one, Int.cast_natCast]
  have rounding : IsRounding n.toUInt64.toFloat ((n : ℤ) * 2 ^ (0 : ℤ)) := by
    show IsRounding (.ofModel (.pack (UnpackedFloat.normalize .binary64 n.toUInt64.toNat 0 _))) _
    rw [hn]
    refine isRounding_normalize _ ?_
    rw [hvalue]
    exact natCast_lt_limit h.le
  rw [hvalue] at rounding
  exact rounding.exact (fits_natCast h.le)

theorem isRounding_ofInt {n : ℕ} (h : (n : ℚ) < limit) : IsRounding (Scalar.ofInt n) n := by
  show IsRounding (Float.ofScientific n false 0) n
  rcases Nat.lt_or_ge n (2 ^ 53) with hlt | hge
  · have hone : (n : ℚ) * 1 = n := mul_one _
    rw [ofScientific_of_lt hlt]
    have product := isRounding_mul (exact_toFloat hlt) exact_one (by rwa [hone, Nat.abs_cast])
    rwa [hone] at product
  · have hvalue : ((n <<< 53 * 1 : ℕ) : ℚ) * 2 ^ (-53 : ℤ) = n := by
      rw [Nat.shiftLeft_eq]
      push_cast
      norm_num
      ring
    have htarget : (-53 : ℤ) ≤ target (n <<< 53 * 1) (-53) := by
      unfold target
      rw [mul_one, log2_shiftLeft (by omega)]
      omega
    rw [ofScientific_of_le hge]
    have rounding := isRounding_round (s := .positive) htarget (isCut_exact _)
      (hvalue.trans_lt h)
    rwa [hvalue] at rounding

/-- A whole number that fits is itself. -/
theorem exact_ofInt {n : ℕ} (fits : Fits n) (h : (n : ℚ) < limit) :
    exact (Scalar.ofInt n) = .finite n :=
  (isRounding_ofInt h).exact fits

section Natural

variable {m n : ℕ} (hx : exact x = .finite m) (hy : exact y = .finite n)
include hx hy

theorem exact_add_natCast (h : m + n ≤ 2 ^ 53) : exact (x + y) = .finite (m + n : ℕ) := by
  have rounding := isRounding_add hx hy
  rw [← Nat.cast_add] at rounding
  exact (rounding (natCast_lt_limit h)).exact (fits_natCast h)

theorem exact_sub_natCast (le : n ≤ m) (h : m ≤ 2 ^ 53) :
    exact (x - y) = .finite (m - n : ℕ) := by
  have rounding := isRounding_sub hx hy
  rw [← Nat.cast_sub le] at rounding
  have h : m - n ≤ 2 ^ 53 := (Nat.sub_le m n).trans h
  exact (rounding (natCast_lt_limit h)).exact (fits_natCast h)

theorem exact_mul_natCast (h : m * n ≤ 2 ^ 53) : exact (x * y) = .finite (m * n : ℕ) := by
  have rounding := isRounding_mul hx hy
  rw [← Nat.cast_mul] at rounding
  exact (rounding (natCast_lt_limit h)).exact (fits_natCast h)

end Natural

theorem Fits.sub_natCast {n : ℕ} (h : Fits p) (le : n ≤ p) (lt : p < 2 ^ 53) : Fits (p - n) := by
  obtain ⟨j, e, he, hj, rfl⟩ := h
  rcases le_or_gt 0 e with hpos | hneg
  · obtain ⟨k, rfl⟩ := Int.eq_ofNat_of_zero_le hpos
    have hvalue : (j : ℚ) * 2 ^ (k : ℤ) - n = (j * 2 ^ k - n : ℤ) := by
      push_cast
      rw [zpow_natCast]
    have few : |((j * 2 ^ k - n : ℤ) : ℚ)| ≤ 2 ^ 53 := by
      rw [← hvalue, abs_of_nonneg (sub_nonneg.mpr le)]
      exact (sub_le_self _ (Nat.cast_nonneg n)).trans lt.le
    exact hvalue ▸ fits_intCast few
  · -- The number has a unit below one, of which the whole number is a multiple.
    obtain ⟨k, rfl⟩ : ∃ k : ℕ, e = -k := ⟨e.natAbs, by omega⟩
    have hunit : (0 : ℚ) < 2 ^ (-k : ℤ) := by positivity
    have hn : (n : ℚ) = n * 2 ^ k * 2 ^ (-k : ℤ) := by
      rw [zpow_neg, zpow_natCast]
      field_simp
    have hle : (n : ℚ) * 2 ^ k ≤ j := le_of_mul_le_mul_right (hn ▸ le) hunit
    refine ⟨j - n * 2 ^ k, -k, he, ?_, ?_⟩
    · push_cast
      rw [abs_of_nonneg (sub_nonneg.mpr hle)]
      exact (sub_le_self _ (by positivity)).trans ((le_abs_self _).trans hj)
    · push_cast
      rw [sub_mul, ← hn]

/-- Below `2 ^ 53`, taking off a whole number that is not greater is exact. -/
theorem exists_exact_sub_natCast {n : ℕ} (hx : exact x = .finite p) (hy : exact y = .finite n)
    (le : n ≤ p) : ∃ q, exact (x - y) = .finite q ∧ 0 ≤ q ∧ (p < 2 ^ 53 → q = p - n) := by
  have hnonneg : 0 ≤ p - n := sub_nonneg.mpr le
  obtain ⟨q, hq, faithful⟩ := isRounding_sub hx hy (by
    rw [abs_of_nonneg hnonneg]
    exact (sub_le_self p (Nat.cast_nonneg n)).trans_lt (lt_of_abs_lt (abs_lt_limit hx)))
  exact ⟨q, hq, (faithful 0 fits_zero).1 hnonneg,
    fun lt => faithful.eq ((fits_of_exact hx).sub_natCast le lt)⟩

/-- The sum of two whole numbers, one of which is not above `2 ^ 53`, is whole and not below that
one. Up to `2 ^ 53` it is exact. -/
theorem exists_exact_add_natCast {k m : ℕ} (hx : exact x = .finite k) (hy : exact y = .finite m)
    (few : k ≤ 2 ^ 53) :
    ∃ n : ℕ, exact (x + y) = .finite n ∧ k ≤ n ∧ (k + m ≤ 2 ^ 53 → n = k + m) := by
  rcases Nat.lt_or_ge (2 ^ 53) (k + m) with hlt | hle
  · obtain ⟨q, hq, faithful⟩ := isRounding_add hx hy (by
      have hlimit := abs_add_lt_limit hy
      rw [Nat.abs_cast] at hlimit
      have few : (k : ℚ) ≤ 2 ^ 53 := by exact_mod_cast few
      rw [abs_of_nonneg (by positivity)]
      linarith)
    have hmany : (2 : ℚ) ^ 53 ≤ q := by
      have hpow := (faithful (2 ^ 53 : ℕ) (fits_natCast le_rfl)).1 (by exact_mod_cast hlt.le)
      exact_mod_cast hpow
    have habs : |q| = q := abs_of_nonneg (by linarith)
    rcases (fits_of_exact hq).whole_or_lt with ⟨n, rfl⟩ | hfew
    · have hn : (2 ^ 53 : ℤ) ≤ n := by exact_mod_cast hmany
      obtain ⟨n, rfl⟩ := Int.eq_ofNat_of_zero_le (show 0 ≤ n by omega)
      exact ⟨n, hq, by omega, fun h => absurd h (not_le.mpr hlt)⟩
    · exact absurd (habs ▸ hfew) (not_lt.mpr hmany)
  · exact ⟨k + m, exact_add_natCast hx hy hle, by omega, fun _ => rfl⟩

theorem exact_floor (hx : exact x = .finite p) (hp : 0 ≤ p) :
    exact (Scalar.floor x) = .finite ⌊p⌋ := by
  obtain ⟨n, hn⟩ := Int.eq_ofNat_of_zero_le (Int.floor_nonneg.mpr hp)
  have hfloor : (⌊p⌋ : ℚ) = n := by rw [hn]; rfl
  have hle : (n : ℚ) ≤ p := hfloor ▸ Int.floor_le p
  have fits := (fits_of_exact hx).floor hp
  have hlt : (n : ℚ) < limit := hle.trans_lt (lt_of_abs_lt (abs_lt_limit hx))
  have hdef : Scalar.floor x = Scalar.ofInt ⌊p⌋ := by
    have hx : Scalar.exact x = .finite p := hx
    unfold Scalar.floor
    rw [hx]
    rfl
  rw [hfloor] at fits ⊢
  rw [hdef, hn]
  exact exact_ofInt fits hlt

/-! ## Remainders -/

theorem exists_dyadic? (hx : exact x = .finite p) :
    ∃ m e : ℤ, dyadic? x = some (m, e) ∧ -1074 ≤ e ∧ |(m : ℚ)| ≤ 2 ^ 53 ∧ p = m * 2 ^ e := by
  unfold dyadic?
  rcases exact_cases hx with ⟨s, hu, rfl⟩ | ⟨s, m, e, hm, hu, hc, rfl⟩
  · rw [hu]
    exact ⟨0, 0, rfl, by decide, by norm_num, by norm_num⟩
  · rw [hu]
    have hm : ((m : ℤ) : ℚ) ≤ 2 ^ 53 := by exact_mod_cast hc.lt.le
    cases s with
    | positive => exact ⟨m, e, rfl, hc.ge, by rwa [Int.cast_natCast, Nat.abs_cast], rfl⟩
    | negative =>
      refine ⟨-m, e, rfl, hc.ge, ?_, ?_⟩
      · rwa [Int.cast_neg, abs_neg, Int.cast_natCast, Nat.abs_cast]
      · rw [Int.cast_neg, neg_mul]
        rfl

/-- Two finite numbers are whole multiples of one power of two, the number of the lesser exponent a
multiple by its mantissa. Their remainder is that of the multiples. -/
theorem exists_remainder (hx : exact x = .finite p) (hy : exact y = .finite q) :
    ∃ M N e : ℤ, -1074 ≤ e ∧ p = M * 2 ^ e ∧ q = N * 2 ^ e ∧
      (|(M : ℚ)| ≤ 2 ^ 53 ∨ |(N : ℚ)| ≤ 2 ^ 53) ∧
      (N ≠ 0 → ∃ sign, Scalar.remainder x y =
        .ofModel (.pack (UnpackedFloat.normalize .binary64 (M.tmod N) e sign))) := by
  obtain ⟨m, e, hmx, he, hm, rfl⟩ := exists_dyadic? hx
  obtain ⟨n, f, hny, hf, hn, rfl⟩ := exists_dyadic? hy
  obtain ⟨k, hk⟩ : ∃ k : ℕ, e = min e f + k := ⟨(e - min e f).toNat, by omega⟩
  obtain ⟨l, hl⟩ : ∃ l : ℕ, f = min e f + l := ⟨(f - min e f).toNat, by omega⟩
  have scaled {j g : ℤ} {i : ℕ} (hg : g = min e f + i) :
      (j : ℚ) * 2 ^ g = (j * 2 ^ i : ℤ) * 2 ^ min e f := by
    rw [hg, zpow_add₀ two_ne_zero, zpow_natCast]
    push_cast
    ring
  refine ⟨m * 2 ^ k, n * 2 ^ l, min e f, le_min he hf, scaled hk, scaled hl, ?_, fun hN => ?_⟩
  · rcases le_total e f with hle | hle
    · obtain rfl : k = 0 := by omega
      rw [pow_zero, mul_one]
      exact .inl hm
    · obtain rfl : l = 0 := by omega
      rw [pow_zero, mul_one]
      exact .inr hn
  · refine ⟨if isNegative x then .negative else .positive, ?_⟩
    show remainder x y = _
    have hn0 : n ≠ 0 := left_ne_zero_of_mul hN
    have hk : (e - min e f).toNat = k := by omega
    have hl : (f - min e f).toNat = l := by omega
    unfold remainder
    simp only [hmx, hny, if_neg hn0, hk, hl, Nat.pow_eq, Nat.cast_pow, Nat.cast_ofNat]

/-- A remainder is exact. -/
theorem exact_remainder (hx : exact x = .finite p) (hy : exact y = .finite q) (hp : 0 ≤ p)
    (hq : 0 < q) : exact (Scalar.remainder x y) = .finite (p - ⌊p / q⌋ * q) := by
  obtain ⟨M, N, e, he, rfl, rfl, hfew, hdef⟩ := exists_remainder hx hy
  have hunit : (0 : ℚ) < 2 ^ e := by positivity
  have hM : 0 ≤ M := by
    exact_mod_cast nonneg_of_mul_nonneg_left hp hunit
  have hN : 0 < N := by
    exact_mod_cast (mul_pos_iff_of_pos_right hunit).mp hq
  obtain ⟨sign, hremainder⟩ := hdef hN.ne'
  rw [Int.tmod_eq_emod_of_nonneg hM] at hremainder
  have hrest := Int.emod_nonneg M hN.ne'
  have hless := Int.emod_lt_of_pos M hN
  have hpart : M % N ≤ M := by
    rw [Int.emod_def]
    linarith [mul_nonneg hN.le (Int.ediv_nonneg hM hN.le)]
  have habs : |((M % N : ℤ) : ℚ)| = (M % N : ℤ) := abs_of_nonneg (by exact_mod_cast hrest)
  -- The number of the lesser exponent bounds the remainder.
  have hbound : |((M % N : ℤ) : ℚ)| ≤ 2 ^ 53 := by
    rw [habs]
    rcases hfew with hfew | hfew
    · exact le_trans (by exact_mod_cast hpart) ((le_abs_self _).trans hfew)
    · exact le_trans (by exact_mod_cast hless.le) ((le_abs_self _).trans hfew)
  have hfloor : ⌊(M * 2 ^ e / (N * 2 ^ e) : ℚ)⌋ = M / N := by
    rw [mul_div_mul_right _ _ hunit.ne']
    obtain ⟨n, rfl⟩ := Int.eq_ofNat_of_zero_le hN.le
    rw [Int.cast_natCast, Rat.floor_intCast_div_natCast]
  have hvalue : (M * 2 ^ e - ⌊(M * 2 ^ e / (N * 2 ^ e) : ℚ)⌋ * (N * 2 ^ e) : ℚ) =
      (M % N : ℤ) * 2 ^ e := by
    rw [hfloor, Int.emod_def]
    push_cast
    ring
  have hlimit : |((M % N : ℤ) : ℚ) * 2 ^ e| < limit := by
    refine lt_of_le_of_lt ?_ (abs_lt_limit hx)
    rw [abs_mul, abs_of_pos hunit, habs, abs_of_nonneg hp]
    gcongr
  rw [hremainder, hvalue]
  exact (isRounding_normalize sign hlimit).exact ⟨_, _, he, hbound, rfl⟩

/-! ## Floored division -/

theorem exact_zeroLike (x : Float) : exact (zeroLike x) = .finite 0 := by
  unfold zeroLike
  split <;> decide

theorem exact_ofInt_one : exact (Scalar.ofInt 1) = .finite 1 := by decide

theorem exact_half : exact (Scalar.ofInt 1 / Scalar.ofInt 2) = .finite (1 / 2) := by
  have small : |(1 / 2 : ℚ)| < limit := by
    refine lt_of_le_of_lt ?_ (two_pow_lt_limit (show 0 ≤ 1022 by decide))
    norm_num
  have rounding := isRounding_div exact_ofInt_one exact_two two_ne_zero small
  exact rounding.exact ⟨1, -1, by decide, by norm_num, by norm_num⟩

/-- A quotient that is not negative has a whole part, which is the quotient where that is whole. -/
theorem exists_exact_wholeQuotient (hx : exact x = .finite p) (hp : 0 ≤ p) :
    ∃ n : ℤ, exact (wholeQuotient x) = .finite n ∧ 0 ≤ n ∧ ∀ k : ℤ, p = k → n = k := by
  have hfloor := exact_floor hx hp
  have hnonneg : 0 ≤ ⌊p⌋ := Int.floor_nonneg.mpr hp
  obtain ⟨d, hd, faithful⟩ := isRounding_sub hx hfloor (by
    rw [abs_of_nonneg (sub_nonneg.mpr (Int.floor_le p))]
    refine lt_of_le_of_lt ?_ (two_pow_lt_limit (show 0 ≤ 1022 by decide))
    linarith [Int.lt_floor_add_one p])
  unfold wholeQuotient
  simp only
  by_cases above : Scalar.ofInt 1 / Scalar.ofInt 2 < x - Scalar.floor x
  · -- More than a half was cut off, so the quotient is not whole, and not large.
    rw [if_pos above]
    have hhalf : 1 / 2 < d := lt_of_less exact_half hd (decide_eq_true above)
    have hne (k : ℤ) : p ≠ k := by
      rintro rfl
      rw [Int.floor_intCast, sub_self] at faithful
      have : d ≤ 0 := (faithful 0 fits_zero).2 le_rfl
      linarith
    have hsmall : p < 2 ^ 53 := by
      rcases (fits_of_exact hx).whole_or_lt with ⟨k, hk⟩ | hlt
      · exact absurd hk (hne k)
      · exact lt_of_abs_lt hlt
    have hnext : (((⌊p⌋ + 1 : ℤ)) : ℚ) ≤ 2 ^ 53 := by
      have : ⌊p⌋ < 2 ^ 53 := Int.floor_lt.mpr (by exact_mod_cast hsmall)
      exact_mod_cast this
    have habs : |((⌊p⌋ + 1 : ℤ) : ℚ)| ≤ 2 ^ 53 := by
      rwa [abs_of_nonneg (by exact_mod_cast (by omega : 0 ≤ ⌊p⌋ + 1))]
    have rounding := isRounding_add hfloor exact_ofInt_one (by
      have := habs.trans_lt (two_pow_lt_limit (show 53 ≤ 1022 by decide))
      exact_mod_cast this)
    refine ⟨⌊p⌋ + 1, ?_, by omega, fun k hk => absurd hk (hne k)⟩
    have exact := rounding.exact (by exact_mod_cast fits_intCast habs)
    exact_mod_cast exact
  · rw [if_neg above]
    refine ⟨⌊p⌋, hfloor, hnonneg, ?_⟩
    rintro k rfl
    exact Int.floor_intCast k

section Division

variable {d : ℕ} (hx : exact x = .finite p) (hy : exact y = .finite d) (hp : 0 ≤ p) (hd : 0 < d)
include hx hy hp hd

/-- Without the remainder, the quotient is exact below `2 ^ 53`. -/
theorem exists_quotient :
    ∃ u, exact ((x - Scalar.remainder x y) / y) = .finite u ∧ 0 ≤ u ∧
      (p < 2 ^ 53 → u = ⌊p / d⌋) := by
  have hpos : (0 : ℚ) < d := by exact_mod_cast hd
  have hone : (1 : ℚ) ≤ d := by exact_mod_cast hd
  have hcut := exact_remainder hx hy hp hpos
  obtain ⟨k, hk⟩ : ∃ k, k = ⌊p / d⌋ := ⟨_, rfl⟩
  rw [← hk] at hcut ⊢
  have hk0 : (0 : ℚ) ≤ k := by
    exact_mod_cast hk ▸ Int.floor_nonneg.mpr (div_nonneg hp hpos.le)
  have hkd : (k : ℚ) * d ≤ p := (le_div_iff₀ hpos).mp (hk ▸ Int.floor_le (p / d))
  have hkd0 : (0 : ℚ) ≤ k * d := mul_nonneg hk0 hpos.le
  -- What is divided is the multiple of the divisor, up to rounding.
  obtain ⟨t, ht, multiple⟩ := isRounding_sub hx hcut (by
    rw [sub_sub_cancel, abs_of_nonneg hkd0]
    exact hkd.trans_lt (lt_of_abs_lt (abs_lt_limit hx)))
  rw [sub_sub_cancel] at multiple
  have ht0 : 0 ≤ t := (multiple 0 fits_zero).1 hkd0
  obtain ⟨u, hu, quotient⟩ := isRounding_div ht hy hpos.ne' (by
    rw [abs_of_nonneg (div_nonneg ht0 hpos.le)]
    exact (div_le_self ht0 hone).trans_lt (lt_of_abs_lt (abs_lt_limit ht)))
  refine ⟨u, hu, (quotient 0 fits_zero).1 (div_nonneg ht0 hpos.le), fun h => ?_⟩
  have fits : Fits (k * d) := by
    have few : |((k * d : ℤ) : ℚ)| ≤ 2 ^ 53 := by
      push_cast
      rw [abs_of_nonneg hkd0]
      exact hkd.trans h.le
    exact_mod_cast fits_intCast few
  rw [multiple.eq fits, mul_div_cancel_right₀ _ hpos.ne'] at quotient
  refine quotient.eq (fits_intCast ?_)
  rw [abs_of_nonneg hk0]
  exact (le_mul_of_one_le_right hk0 hone).trans (hkd.trans h.le)

/-- The rest of a floored division by a positive whole number is exact. The quotient is whole, and
below `2 ^ 53` it is exact. -/
theorem exists_divMod? :
    ∃ w r, ∃ n : ℕ, divMod? x y = some (w, r) ∧ exact r = .finite (p - ⌊p / d⌋ * d) ∧
      exact w = .finite n ∧ (p < 2 ^ 53 → n = ⌊p / d⌋) := by
  have hpos : (0 : ℚ) < d := by exact_mod_cast hd
  have hzero : exact (Scalar.zero : Float) = .finite 0 := exact_ofInt_zero
  have hcut := exact_remainder hx hy hp hpos
  have hcut0 : 0 ≤ p - ⌊p / d⌋ * d :=
    sub_nonneg.mpr ((le_div_iff₀ hpos).mp (Int.floor_le (p / d)))
  obtain ⟨u, hu, hu0, hsmall⟩ := exists_quotient hx hy hp hd
  obtain ⟨w, hw⟩ : ∃ w, w = if (x - Scalar.remainder x y) / y == Scalar.zero then zeroLike (x / y)
      else wholeQuotient ((x - Scalar.remainder x y) / y) := ⟨_, rfl⟩
  have hwhole : ∃ n : ℕ, exact w = .finite n ∧ (p < 2 ^ 53 → n = ⌊p / d⌋) := by
    rw [hw, beq_of_exact hu hzero]
    by_cases h0 : u = 0
    · rw [if_pos (decide_eq_true h0)]
      refine ⟨0, ?_, fun h => ?_⟩
      · rw [Nat.cast_zero]
        exact exact_zeroLike _
      · exact_mod_cast h0.symm.trans (hsmall h)
    · rw [if_neg (by simpa using h0)]
      obtain ⟨n, hn, hn0, hexact⟩ := exists_exact_wholeQuotient hu hu0
      obtain ⟨n, rfl⟩ := Int.eq_ofNat_of_zero_le hn0
      exact ⟨n, hn, fun h => hexact _ (hsmall h)⟩
  obtain ⟨n, hn, hexact⟩ := hwhole
  have positive : ¬(y == Scalar.zero) = true := by
    rw [beq_of_exact hy hzero, decide_eq_true_iff]
    exact hpos.ne'
  have same :
      (decide (y < Scalar.zero) != decide (Scalar.remainder x y < Scalar.zero)) = false := by
    have hless := less_of_exact hy hzero
    have hless' := less_of_exact hcut hzero
    unfold Scalar.less at hless hless'
    rw [hless, hless', decide_eq_false hpos.not_gt, decide_eq_false hcut0.not_gt]
    rfl
  unfold divMod?
  rw [if_neg positive]
  simp only [same]
  by_cases none : (Scalar.remainder x y == Scalar.zero) = true
  · rw [if_pos none]
    rw [beq_of_exact hcut hzero, decide_eq_true_iff] at none
    rw [none]
    exact ⟨w, _, n, by rw [hw], exact_zeroLike y, hn, hexact⟩
  · rw [if_neg none]
    exact ⟨w, _, n, by rw [hw]; rfl, hcut, hn, hexact⟩

end Division

end CueCheck.Binary64
