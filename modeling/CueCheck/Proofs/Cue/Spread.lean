import CueCheck.Proofs.Cue.Closing
import CueCheck.Proofs.Cue.Ending

/-!
# Patterns of spread times

Times that are neither too great nor too close to one another lay out patterns that stay away from
the ends of the range of binary64 numbers.

- **Times** (`Spread`): a bound on their magnitude, and a gap between any two that differ. Times on
  a grid are spread (`spread_of_grid`).
- **Room** (`Fits`): bound, gap and number of times leave room for the rounding of a pattern's
  interval, as powers of two do whose exponents add up to 900 or less (`fits_two_pow`).
- **Intervals** (`isNear_repetitionLength`): the interval of a pattern is near its share of the
  length.
- **Patterns** (`Pattern.close_isTame`): closing markers of such times gives a pattern that is
  moderate, one with an interval between a fraction of the gap and a multiple of the bound.
-/

namespace CueCheck

open Binary64 (greatest least least_pos)

/-! ## Times -/

/-- Times of a magnitude up to `bound`, any two of them equal or at least `gap` apart. -/
structure Spread (bound gap : ℚ) (times : List Float) : Prop where
  within : ∀ t ∈ times, IsWithin bound t
  apart : ∀ s ∈ times, ∀ t ∈ times, ∀ p q, Scalar.exact s = .finite p →
    Scalar.exact t = .finite q → p ≠ q → gap ≤ |p - q|

variable {bound gap count : ℚ} {times : List Float}

theorem Spread.sublist {fewer : List Float} (spread : Spread bound gap times)
    (h : fewer.Sublist times) : Spread bound gap fewer where
  within t ht := spread.within t (h.subset ht)
  apart s hs t ht := spread.apart s (h.subset hs) t (h.subset ht)

/-- Times on a grid. -/
theorem spread_of_grid (hgap : 0 ≤ gap) (grid : ∀ t ∈ times, ∃ n : ℤ,
    Scalar.exact t = .finite (n * gap) ∧ |n * gap| ≤ bound) : Spread bound gap times where
  within t ht := by
    obtain ⟨n, hn, hb⟩ := grid t ht
    exact ⟨_, hn, hb⟩
  apart s hs t ht p q hp hq hne := by
    obtain ⟨m, hm, -⟩ := grid s hs
    obtain ⟨n, hn, -⟩ := grid t ht
    obtain rfl := Extended.finite.inj (hp.symm.trans hm)
    obtain rfl := Extended.finite.inj (hq.symm.trans hn)
    have hmn : m - n ≠ 0 := sub_ne_zero.mpr fun h => hne (by rw [h])
    have hone : (1 : ℚ) ≤ |(m : ℚ) - n| := by exact_mod_cast Int.one_le_abs hmn
    rw [← sub_mul, abs_mul, abs_of_nonneg hgap]
    exact le_mul_of_one_le_left hgap hone

/-! ## Room -/

/-- Patterns of up to `count` beats between such times stay away from the ends of the range. -/
structure Fits (bound gap count : ℚ) : Prop where
  bound_nonneg : 0 ≤ bound
  count_ge : 1 ≤ count
  count_le : count ≤ greatest
  gap_ge : 2 ^ 70 * (count * least) ≤ gap
  bound_le : 2 ^ 30 * (count * bound) ≤ greatest
  ratio_le : 2 ^ 11 * (count * bound) ≤ gap * greatest

namespace Fits

variable (fits : Fits bound gap count)
include fits

theorem gap_pos : 0 < gap := by
  have := fits.count_ge
  have := least_pos
  have : 0 < count * least := by positivity
  have := fits.gap_ge
  linarith

theorem least_le : 2 ^ 70 * least ≤ gap := by
  have := le_mul_of_one_le_left least_pos.le fits.count_ge
  have := fits.gap_ge
  linarith

theorem bound_le' : 2 ^ 30 * bound ≤ greatest := by
  have := le_mul_of_one_le_left fits.bound_nonneg fits.count_ge
  have := fits.bound_le
  linarith

theorem share_le : gap / (16 * count) ≤ gap / 16 := by
  have := fits.count_ge
  have := fits.gap_pos
  gcongr
  linarith

theorem isScale : IsScale (gap / (16 * count)) (8 * bound) := by
  have hcount := fits.count_ge
  have hpos : 0 < 16 * count := by linarith
  constructor
  · rw [le_div_iff₀ hpos]
    have := mul_pos (by linarith : 0 < count) least_pos
    have := fits.gap_ge
    linarith
  · have := fits.bound_le'
    have := fits.bound_nonneg
    linarith
  · rw [div_mul_eq_mul_div, le_div_iff₀ hpos]
    have := fits.ratio_le
    linarith

end Fits

theorem fits_two_pow {a b r : ℕ} (h : a + b + r ≤ 900) : Fits (2 ^ b) (1 / 2 ^ a) (2 ^ r) where
  bound_nonneg := by positivity
  count_ge := one_le_pow₀ (by norm_num)
  count_le := Binary64.two_pow_le_greatest (by omega)
  gap_ge := by
    rw [le_div_iff₀ (by positivity)]
    calc (2 : ℚ) ^ 70 * (2 ^ r * least) * 2 ^ a = 2 ^ (70 + r + a) * least := by ring
      _ ≤ 2 ^ (70 + r + a) * 2 ^ (-(70 + r + a : ℕ) : ℤ) := by
        have : least ≤ (2 : ℚ) ^ (-(70 + r + a : ℕ) : ℤ) := Binary64.least_le_two_zpow (by omega)
        gcongr
      _ = 1 := by
        rw [← zpow_natCast, ← zpow_add₀ (by norm_num), add_neg_cancel, zpow_zero]
  bound_le := by
    rw [← pow_add, ← pow_add]
    exact Binary64.two_pow_le_greatest (by omega)
  ratio_le := by
    rw [div_mul_eq_mul_div, le_div_iff₀ (by positivity), one_mul, ← pow_add, ← pow_add, ← pow_add]
    exact Binary64.two_pow_le_greatest (by omega)

/-! ## Distances -/

section Distances

variable {x y : Float} {p q : ℚ}

theorem sub_within (fits : Fits bound gap count) (hx : IsWithin bound x) (hy : IsWithin bound y) :
    IsWithin (3 * bound) (x - y) := by
  obtain ⟨p, hp, hpb⟩ := hx
  obtain ⟨q, hq, hqb⟩ := hy
  have hdiff : |p - q| ≤ 2 * bound := by
    have := abs_sub p q
    linarith
  have hbound := fits.bound_le'
  have hnonneg := fits.bound_nonneg
  obtain ⟨r, hr, herror⟩ := Binary64.sub_error hp hq (by linarith)
  refine ⟨r, hr, ?_⟩
  have := abs_sub_abs_le_abs_sub r (p - q)
  linarith

/-- The distance of an end that comes after a start, as a pattern takes it. -/
theorem length_bounds (fits : Fits bound gap count) (spread : Spread bound gap times)
    {start stop : Float} (hstart : start ∈ times) (hstop : stop ∈ times)
    (h : Pattern.endsAtStart start stop = false) :
    ∃ L, Scalar.exact (stop - start) = .finite L ∧ gap / 2 ≤ L ∧ L ≤ 3 * bound := by
  obtain ⟨p, hp, hpb⟩ := spread.within stop hstop
  obtain ⟨q, hq, hqb⟩ := spread.within start hstart
  have hdiff : |p - q| ≤ 2 * bound := by
    have := abs_sub p q
    linarith
  have hbound := fits.bound_le'
  have hnonneg := fits.bound_nonneg
  obtain ⟨L, hL, herror⟩ := Binary64.sub_error hp hq (by linarith)
  have hle : stop - start ≤ Scalar.zero ↔ L ≤ 0 :=
    Binary64.le_iff_of_exact hL Binary64.exact_ofInt_zero
  have hpos : 0 < L := by
    unfold Pattern.endsAtStart at h
    rw [Bool.or_eq_false_iff, decide_eq_false_iff_not, hle, not_le] at h
    exact h.1
  rw [abs_le] at herror
  -- The sign of a difference is not rounded away.
  have hlt : 0 < p - q := by
    by_contra hle
    rw [abs_of_nonpos (not_lt.mp hle)] at herror
    linarith
  have hgap := spread.apart stop hstop start hstart p q hp hq (by linarith : q < p).ne'
  rw [abs_of_pos hlt] at herror hgap hdiff
  exact ⟨L, hL, by linarith, by linarith⟩

end Distances

/-! ## Closing markers -/

/-- No pattern at all, or a moderate one. -/
def Pattern.IsTame (pattern : Pattern Float) (fine most : ℚ) : Prop :=
  pattern = .empty ∨ pattern.IsModerate fine most

/-- The share that `size` of `n` beats have in a length between half the gap and three times the
bound. -/
theorem share_bounds (fits : Fits bound gap count) {L : ℚ} {size n : ℕ} (hlo : gap / 2 ≤ L)
    (hhi : L ≤ 3 * bound) (hsize : 1 ≤ size) (hle : size ≤ n) (hn : (n : ℚ) ≤ count) :
    8 * (gap / (16 * count)) ≤ L * size / n ∧ L * size / n ≤ 3 * bound := by
  have hgap := fits.gap_pos
  have hsize' : (1 : ℚ) ≤ size := by exact_mod_cast hsize
  have hle' : (size : ℚ) ≤ n := by exact_mod_cast hle
  have hnpos : (0 : ℚ) < n := by linarith
  constructor
  · rw [le_div_iff₀ hnpos, ← mul_div_assoc, div_mul_eq_mul_div, div_le_iff₀ (by linarith)]
    calc 8 * gap * n ≤ 8 * gap * count := by gcongr
      _ = gap / 2 * (16 * count) := by ring
      _ ≤ L * size * (16 * count) := by
        have := hlo.trans (le_mul_of_one_le_right (by linarith) hsize')
        gcongr
        linarith
  · rw [div_le_iff₀ hnpos]
    have := fits.bound_nonneg
    gcongr

/-- The interval of a pattern of markers: `size` of `n` beats of it make a repetition. -/
theorem isNear_repetitionLength {length : Float} {L : ℚ} {size n : ℕ}
    (hL : Binary64.IsNear (1 / 2 ^ 50) length L) (hpos : 0 ≤ L) (hsize : size ≤ n) (hn : 1 ≤ n)
    (hgreatest : (n : ℚ) ≤ greatest) (hlo : 2 ^ 60 * least ≤ L * size / n)
    (hhi : 2 * (L * size) ≤ greatest) :
    Binary64.IsNear (1 / 2 ^ 46) (repetitionLength length size n) (L * size / n) := by
  have hn' : (1 : ℚ) ≤ n := by exact_mod_cast hn
  have hsize' : (size : ℚ) ≤ n := by exact_mod_cast hsize
  have hproduct : |L * size| = L * size := abs_of_nonneg (by positivity)
  have hquotient : |L * size / n| = L * size / n := abs_of_nonneg (by positivity)
  have hle : L * size / n ≤ L * size := div_le_self (by positivity) hn'
  have hnear := hL.mul ⟨le_rfl, by norm_num⟩ (Binary64.isNear_ofInt (hsize'.trans hgreatest))
    (by rw [hproduct]; linarith) (by rw [hproduct]; linarith)
  exact (hnear.div ⟨by norm_num, by norm_num⟩
    ((Binary64.isNear_ofInt hgreatest).mono (by norm_num)) (by linarith)
    (by rw [hquotient]; linarith) (by rw [hquotient]; linarith)).mono (by norm_num)

theorem repetitionLength_bounds (fits : Fits bound gap count) {length : Float} {L : ℚ}
    {size n : ℕ} (hL : Scalar.exact length = .finite L) (hlo : gap / 2 ≤ L) (hhi : L ≤ 3 * bound)
    (hsize : 1 ≤ size) (hle : size ≤ n) (hn : (n : ℚ) ≤ count) :
    ∃ q, Scalar.exact (repetitionLength length size n) = .finite q ∧
      gap / (16 * count) ≤ q ∧ q ≤ 8 * bound := by
  have hgap := fits.gap_pos
  have hleast := least_pos
  have hnonneg := fits.bound_nonneg
  have hsize' : (size : ℚ) ≤ n := by exact_mod_cast hle
  have hall : L * size ≤ 3 * (count * bound) := by
    calc L * size ≤ 3 * bound * count := by
          gcongr
          linarith
      _ = 3 * (count * bound) := by ring
  have hall0 : 0 ≤ count * bound := mul_nonneg (zero_le_one.trans fits.count_ge) hnonneg
  have hbound := fits.bound_le
  have hfine := fits.isScale.fine_ge
  obtain ⟨hshare, hshare'⟩ := share_bounds fits hlo hhi hsize hle hn
  obtain ⟨q, hq, herror⟩ := isNear_repetitionLength (Binary64.isNear_of_exact hL) (by linarith)
    hle (by omega) (hn.trans fits.count_le) (by linarith) (by linarith)
  rw [abs_of_nonneg (by linarith : 0 ≤ L * size / n), abs_le] at herror
  exact ⟨q, hq, by linarith, by linarith⟩

namespace Pattern

variable {pending : List (Marker Float)} {start stop time : Float}
  {previous pattern : Pattern Float}

theorem ofLoneSet_isTame (fits : Fits bound gap count) (spread : Spread bound gap times)
    (hstart : start ∈ times) (hstop : stop ∈ times) (h : ofLoneSet start stop = some pattern) :
    pattern.IsTame (gap / (16 * count)) (8 * bound) := by
  obtain ⟨he, rfl⟩ := ofLoneSet_eq_some_iff.mp h
  obtain ⟨L, hL, hlo, hhi⟩ := length_bounds fits spread hstart hstop he
  have hgap := fits.gap_pos
  have hleast := fits.least_le
  have hbound := fits.bound_le'
  have hnonneg := fits.bound_nonneg
  have hfine := fits.share_le
  have habs : |2 * L| = 2 * L := abs_of_pos (by linarith)
  obtain ⟨I, hI, herror⟩ := Binary64.mul_error Binary64.exact_two hL (by rw [habs]; linarith)
  rw [habs, abs_le] at herror
  refine .inr ⟨⟨I, hI, by linarith, by linarith⟩, fun offset ho => ⟨L, ?_, ?_⟩⟩
  · rw [List.mem_singleton.mp ho]
    exact hL
  · rw [abs_of_pos (by linarith)]
    linarith

theorem LaidOut.isTame (h : LaidOut start stop pending pattern) (fits : Fits bound gap count)
    (spread : Spread bound gap times) (hstart : start ∈ times) (hstop : stop ∈ times)
    (hmem : ∀ m ∈ pending, m.time ∈ times) (few : (pending.length : ℚ) ≤ count) :
    pattern.IsTame (gap / (16 * count)) (8 * bound) := by
  obtain ⟨he, -, shape⟩ := h
  obtain ⟨L, hL, hlo, hhi⟩ := length_bounds fits spread hstart hstop he
  have hnonneg := fits.bound_nonneg
  rcases shape with ⟨-, rfl⟩ | ⟨hne, rfl⟩
  · have hgap := fits.gap_pos
    have hfine := fits.share_le
    exact .inr ⟨⟨L, hL, by linarith, by linarith⟩, fun offset ho => by cases ho⟩
  · have hn : ((offsetsOf .set start pending).length : ℚ) ≤ count :=
      (Nat.cast_le.mpr (length_offsetsOf_le .set start pending)).trans few
    refine .inr ⟨repetitionLength_bounds fits hL hlo hhi (period_pos hne) (period_le hne) hn,
      fun offset ho => ?_⟩
    obtain ⟨m, hm, -, rfl⟩ := mem_offsetsOf.mp (List.mem_of_mem_take ho)
    exact (sub_within fits (spread.within _ (hmem m hm)) (spread.within _ hstart)).mono
      (by linarith)

/-- Markers of such times lay out tame patterns only. -/
theorem close_isTame (fits : Fits bound gap count) (spread : Spread bound gap times)
    (htime : time ∈ times) (hmem : ∀ m ∈ pending, m.time ∈ times)
    (few : (pending.length : ℚ) ≤ count)
    (hp : previous.IsTame (gap / (16 * count)) (8 * bound))
    (h : close pending time previous = some pattern) :
    pattern.IsTame (gap / (16 * count)) (8 * bound) := by
  obtain ⟨-, -, rfl⟩ | ⟨start, rfl, hlone⟩ | ⟨start, rest, rfl, hlaid⟩ := close_cases h
  · exact hp
  · exact ofLoneSet_isTame fits spread (hmem _ List.mem_cons_self) htime hlone
  · exact hlaid.isTame fits spread (hmem _ List.mem_cons_self) htime hmem few

end Pattern

end CueCheck
