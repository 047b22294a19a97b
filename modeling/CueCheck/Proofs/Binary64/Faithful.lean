import CueCheck.Proofs.Binary64.Distance

/-!
# Faithful rounding

The result of an operation is a neighbour of the exact one: no number that binary64 has room for
lies strictly between the two.

- **Neighbours** (`Fits`, `IsFaithful`): a number is rounded without going past any number of 53
  bits.
- **Operations** (`isRounding_add`, `isRounding_sub`, `isRounding_mul`, `isRounding_div`): results
  that do not overflow are faithful. What fits is not rounded at all (`IsRounding.exact`).
-/

namespace CueCheck.Binary64

open Float.Model UnpackedFloat

variable {x y : Float} {p q r v w : ℚ}

/-! ## Neighbours -/

/-- A number of at most 53 bits, none of them below the least number. -/
def Fits (w : ℚ) : Prop :=
  ∃ j e : ℤ, -1074 ≤ e ∧ |(j : ℚ)| ≤ 2 ^ 53 ∧ w = j * 2 ^ e

theorem fits_of_exact (hx : exact x = .finite p) : Fits p :=
  exists_multiple hx

theorem fits_intCast {n : ℤ} (h : |(n : ℚ)| ≤ 2 ^ 53) : Fits n :=
  ⟨n, 0, by decide, h, by rw [zpow_zero, mul_one]⟩

theorem Fits.neg (h : Fits w) : Fits (-w) := by
  obtain ⟨j, e, he, hj, rfl⟩ := h
  exact ⟨-j, e, he, by rwa [Int.cast_neg, abs_neg], by rw [Int.cast_neg, neg_mul]⟩

/-- Two numbers lie on the same side of everything that fits. -/
def IsFaithful (r v : ℚ) : Prop :=
  ∀ w, Fits w → (w ≤ v → w ≤ r) ∧ (v ≤ w → r ≤ w)

theorem IsFaithful.eq (h : IsFaithful r v) (fits : Fits v) : r = v :=
  le_antisymm ((h v fits).2 le_rfl) ((h v fits).1 le_rfl)

theorem isFaithful_refl (v : ℚ) : IsFaithful v v :=
  fun _ _ => ⟨id, id⟩

theorem IsFaithful.signed (h : IsFaithful r v) (s : Sign) :
    IsFaithful (signed s r) (signed s v) := by
  cases s with
  | positive => exact h
  | negative =>
    intro w fits
    obtain ⟨below, above⟩ := h (-w) fits.neg
    exact ⟨fun hw => le_neg.mpr (above (le_neg.mp hw)), fun hw => neg_le.mpr (below (neg_le.mp hw))⟩

/-- Rounding a mantissa to 53 bits is faithful. -/
theorem isFaithful_rounded {m : ℕ} {e : ℤ} {a : Accuracy} (he : e ≤ target m e)
    (cut : IsCut (.ofMantissaAndAccuracy m a) v) :
    IsFaithful (rounded m e a * 2 ^ target m e) (v * 2 ^ e) := by
  have cut := isCut_shifted he cut
  have hpos : (0 : ℚ) < 2 ^ target m e := by positivity
  obtain ⟨u, hu⟩ : ∃ u, u = v * 2 ^ e / 2 ^ target m e := ⟨_, rfl⟩
  have hscale : v * 2 ^ e = u * 2 ^ target m e := by rw [hu, div_mul_cancel₀ _ hpos.ne']
  rw [hscale, rounded_eq]
  rw [← hu] at cut
  rintro w ⟨j, f, hf, hj, rfl⟩
  rcases le_or_gt (target m e) f with hle | hlt
  · -- The number is a whole multiple of the unit in the last place.
    obtain ⟨k, rfl⟩ : ∃ k : ℕ, f = target m e + k := ⟨(f - target m e).toNat, by omega⟩
    have hmultiple : (j : ℚ) * 2 ^ (target m e + k) = (j * 2 ^ k : ℤ) * 2 ^ target m e := by
      rw [zpow_add₀ two_ne_zero, zpow_natCast]
      push_cast
      ring
    obtain ⟨below, above⟩ := cut.rounded (j * 2 ^ k)
    rw [hmultiple, mul_le_mul_iff_left₀ hpos, mul_le_mul_iff_left₀ hpos,
      mul_le_mul_iff_left₀ hpos, mul_le_mul_iff_left₀ hpos]
    exact ⟨fun h => by exact_mod_cast below h, fun h => by exact_mod_cast above h⟩
  · -- The number has a lower unit, so it is not above the lowest mantissa of 53 bits.
    have hnormal : ((2 ^ 52 : ℤ) : ℚ) ≤ u := by
      have hnormal := le_shifted he (by omega)
      rw [← mantissa_shifted m e a] at hnormal
      refine le_trans ?_ cut.le
      exact_mod_cast hnormal
    have hbelow : (j : ℚ) * 2 ^ f ≤ (2 ^ 52 : ℤ) * 2 ^ target m e := by
      calc (j : ℚ) * 2 ^ f ≤ 2 ^ 53 * 2 ^ (target m e - 1) := by
            have := (le_abs_self (j : ℚ)).trans hj
            gcongr
            · norm_num
            · omega
        _ = (2 ^ 52 : ℤ) * 2 ^ target m e := by
            rw [zpow_sub₀ two_ne_zero]
            push_cast
            ring
    obtain ⟨below, above⟩ := cut.rounded (2 ^ 52)
    have hrounded : ((2 ^ 52 : ℤ) : ℚ) ≤ (shifted m e a).roundedMantissa := by
      exact_mod_cast below hnormal
    constructor
    · intro _
      exact hbelow.trans (mul_le_mul_of_nonneg_right hrounded hpos.le)
    · intro h
      have hlowest : u ≤ (2 ^ 52 : ℤ) := le_of_mul_le_mul_right (h.trans hbelow) hpos
      have hrounded : ((shifted m e a).roundedMantissa : ℚ) ≤ (2 ^ 52 : ℤ) := by
        exact_mod_cast above hlowest
      exact (mul_le_mul_of_nonneg_right (hrounded.trans hnormal) hpos.le).trans h

/-! ## Operations -/

/-- The magnitude from which on results overflow: half a unit beyond the largest number. -/
@[irreducible] def limit : ℚ :=
  (2 ^ 54 - 1) * 2 ^ (970 : ℤ)

/-- The number is finite, and a neighbour of the rational. -/
def IsRounding (x : Float) (v : ℚ) : Prop :=
  ∃ r, exact x = .finite r ∧ IsFaithful r v

theorem IsRounding.exact (h : IsRounding x v) (fits : Fits v) : exact x = .finite v := by
  obtain ⟨r, hr, faithful⟩ := h
  rwa [← faithful.eq fits]

theorem isRounding_of_exact (h : Binary64.exact x = .finite v) : IsRounding x v :=
  ⟨v, h, isFaithful_refl v⟩

/-- Below the limit, the highest exponent is not exceeded, nor a mantissa of 53 bits at it. -/
theorem rounded_lt {m : ℕ} {e : ℤ} {a : Accuracy} (he : e ≤ target m e)
    (cut : IsCut (.ofMantissaAndAccuracy m a) v) (hv : v * 2 ^ e < limit)
    (ht : 971 ≤ target m e) : target m e = 971 ∧ rounded m e a < 2 ^ 53 := by
  have cut := isCut_shifted he cut
  have hnormal : (2 : ℚ) ^ 52 ≤ (shifted m e a).mantissa := by
    rw [mantissa_shifted]
    exact_mod_cast le_shifted he (by omega)
  obtain ⟨k, hk⟩ : ∃ k : ℕ, target m e = 971 + k := ⟨(target m e - 971).toNat, by omega⟩
  have hpos : (0 : ℚ) < 2 ^ (970 : ℤ) := by positivity
  have hunit : (2 : ℚ) ^ target m e = 2 * 2 ^ k * 2 ^ (970 : ℤ) := by
    rw [hk, show (971 : ℤ) = 970 + 1 by rfl, zpow_add₀ two_ne_zero, zpow_add_one₀ two_ne_zero,
      zpow_natCast]
    ring
  -- Counted in units in the last place, the value is half a unit below the mantissas of 54 bits.
  have hless : v * 2 ^ e / 2 ^ target m e * (2 * 2 ^ k) < 2 ^ 54 - 1 := by
    rw [hunit, div_mul_eq_mul_div, div_lt_iff₀ (by positivity)]
    unfold limit at hv
    calc v * 2 ^ e * (2 * 2 ^ k) < (2 ^ 54 - 1) * 2 ^ (970 : ℤ) * (2 * 2 ^ k) :=
          mul_lt_mul_of_pos_right hv (by positivity)
      _ = _ := by ring
  have hone : (1 : ℚ) ≤ 2 ^ k := one_le_pow₀ one_le_two
  have hle := cut.le
  rcases Nat.eq_zero_or_pos k with rfl | hk0
  · refine ⟨by omega, ?_⟩
    rw [pow_zero, mul_one] at hless
    have hlt : (shifted m e a).mantissa < 2 ^ 53 := by
      have : ((shifted m e a).mantissa : ℚ) < 2 ^ 53 := by linarith
      exact_mod_cast this
    rw [rounded_eq]
    rcases Nat.lt_or_ge (shifted m e a).mantissa (2 ^ 53 - 1) with hlow | hhigh
    · have := (roundedMantissa_bounds (shifted m e a)).2
      omega
    · have hhigh : (2 : ℚ) ^ 53 ≤ (shifted m e a).mantissa + 1 := by
        exact_mod_cast (by omega : 2 ^ 53 ≤ (shifted m e a).mantissa + 1)
      rwa [cut.rounded_of_less (by linarith)]
  · have htwo : (2 : ℚ) ≤ 2 ^ k := le_self_pow₀ one_le_two hk0.ne'
    have hmany : (2 : ℚ) ^ 52 * (2 * 2) ≤ v * 2 ^ e / 2 ^ target m e * (2 * 2 ^ k) := by
      have := hnormal.trans hle
      gcongr
    exact absurd (hmany.trans_lt hless) (by norm_num)

/-- Below the limit, rounding and packing is faithful. -/
theorem isRounding_round {s : Sign} {m : ℕ} {e : ℤ} {a : Accuracy} (he : e ≤ target m e)
    (cut : IsCut (.ofMantissaAndAccuracy m a) v) (hv : v * 2 ^ e < limit) :
    IsRounding (.ofModel (.pack (roundWithAccuracy .binary64 s m e a))) (signed s (v * 2 ^ e)) := by
  have packed : Binary64.exact (.ofModel (.pack (roundWithAccuracy .binary64 s m e a))) =
      .finite (s.apply (rounded m e a) * 2 ^ target m e) := by
    rcases le_or_gt 971 (target m e) with high | low
    · obtain ⟨htop, hlt⟩ := rounded_lt he cut hv high
      exact exact_pack_round_of_lt he htop.le hlt
    · exact exact_pack_round he (by omega)
  refine ⟨_, packed, ?_⟩
  rw [apply_mul]
  exact (isFaithful_rounded he cut).signed s

/-- So is rounding an integer multiple of a power of two. -/
theorem isRounding_normalize {m e : ℤ} (zero : Sign) (hv : |(m : ℚ) * 2 ^ e| < limit) :
    IsRounding (.ofModel (.pack (UnpackedFloat.normalize .binary64 m e zero))) (m * 2 ^ e) := by
  have round (s : Sign) {n : ℕ} (hn : n ≠ 0) (hv : (n : ℚ) * 2 ^ e < limit) :
      IsRounding (.ofModel (.pack (UnpackedFloat.round .binary64 s n e)))
        (signed s (n * 2 ^ e)) := by
    obtain ⟨k, hround, htarget, hvalue⟩ := exists_round_eq s hn e
    have hle : min e (target n e) ≤ target k (min e (target n e)) := by omega
    rw [hround, ← hvalue]
    exact isRounding_round hle (isCut_exact k) (hvalue.trans_lt hv)
  unfold UnpackedFloat.normalize
  rcases lt_trichotomy m 0 with hm | rfl | hm
  · obtain ⟨n, rfl⟩ : ∃ n : ℕ, m = -n := ⟨m.natAbs, by omega⟩
    rw [Int.compare_eq_lt.mpr hm]
    simp only [neg_neg, Int.toNat_natCast]
    rw [Int.cast_neg, Int.cast_natCast, neg_mul, abs_neg, abs_of_nonneg (by positivity)] at hv
    rw [Int.cast_neg, Int.cast_natCast, neg_mul]
    exact round .negative (by omega) hv
  · rw [Int.cast_zero, zero_mul]
    exact isRounding_of_exact (exact_pack_zero zero)
  · obtain ⟨n, rfl⟩ := Int.eq_ofNat_of_zero_le hm.le
    rw [Int.compare_eq_gt.mpr hm]
    simp only [Int.toNat_natCast]
    rw [Int.cast_natCast, abs_of_nonneg (by positivity)] at hv
    rw [Int.cast_natCast]
    exact round .positive (by omega) hv

theorem isRounding_pack_add {a b : UnpackedFloat} (ha : IsValue a) (hb : IsValue b)
    (hp : value? a = some p) (hq : value? b = some q) (h : |p + q| < limit) :
    IsRounding (.ofModel (.pack (UnpackedFloat.add .binary64 a b))) (p + q) := by
  rcases exact_pack_add_cases ha hb hp hq with whole | ⟨m, e, -, hsum, hadd⟩
  · exact isRounding_of_exact whole
  · rw [hsum] at h ⊢
    rw [hadd]
    exact isRounding_normalize .positive h

section

variable (hx : exact x = .finite p) (hy : exact y = .finite q)
include hx hy

theorem isRounding_add (h : |p + q| < limit) : IsRounding (x + y) (p + q) :=
  isRounding_pack_add (isValue_of_exact hx) (isValue_of_exact hy) (exact_eq_finite_iff.mp hx)
    (exact_eq_finite_iff.mp hy) h

theorem isRounding_sub (h : |p - q| < limit) : IsRounding (x - y) (p - q) := by
  show IsRounding (.ofModel (.pack (UnpackedFloat.sub .binary64 _ _))) _
  rw [sub_eq_add]
  rw [sub_eq_add_neg] at h ⊢
  exact isRounding_pack_add (isValue_of_exact hx) (isValue_neg (isValue_of_exact hy))
    (exact_eq_finite_iff.mp hx) (value?_neg (exact_eq_finite_iff.mp hy)) h

theorem isRounding_mul (h : |p * q| < limit) : IsRounding (x * y) (p * q) := by
  rcases exact_mul_cases hx hy with ⟨h0, hzero⟩ | ⟨s, m, e, he, hvalue, hproduct⟩
  · rw [h0]
    exact isRounding_of_exact hzero
  · rw [hvalue, abs_signed s (by positivity)] at h
    rw [hvalue, hproduct]
    exact isRounding_round he (isCut_exact m) h

theorem isRounding_div (h0 : q ≠ 0) (h : |p / q| < limit) : IsRounding (x / y) (p / q) := by
  rcases exact_div_cases hx hy h0 with
    ⟨hzero, hquotient⟩ | ⟨s, m, e, a, v, he, hv, cut, hvalue, hquotient⟩
  · rw [hzero]
    exact isRounding_of_exact hquotient
  · rw [hvalue, abs_signed s (by positivity)] at h
    rw [hvalue, hquotient]
    exact isRounding_round he cut h

end

end CueCheck.Binary64
