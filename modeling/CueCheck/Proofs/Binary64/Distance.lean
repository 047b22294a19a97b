import CueCheck.Proofs.Binary64.Place

/-!
# Distances of binary64 numbers

How far apart two finite numbers are, and what lies between them.

- **Overflow** (`isFinite_sub_of_almostEqual_eq_false`): a difference overflows only where the sum
  of the magnitudes does, and then the tolerance tells nothing apart. So numbers that it tells apart
  have a finite distance.
- **Spacing** (`abs_le_of_ne`): two different numbers are apart by the least number, and by a part
  in `2 ^ 54` of either.
- **What lies between** (`almostEqual_of_between`): rounding is finer than that, so what lies
  between two numbers that are equal up to tolerance is equal to both.
-/

namespace CueCheck.Binary64

open Float.Model UnpackedFloat

variable {x y z : Float} {p q r : ℚ}

/-! ## Overflow -/

/-- Packing treats both signs alike. -/
theorem unpack_pack_abs (a : UnpackedFloat) :
    (Float.Model.pack a.abs).unpack = (Float.Model.pack a).unpack.abs := by
  have hbias : Format.binary64.exponentBias = 1023 := rfl
  cases a with
  | notANumber => rfl
  | infinity s => cases s <;> rfl
  | zero s => cases s <;> rfl
  | finite s m e hm =>
    have components (exponent : BitVec 11) (mantissa : BitVec 52) :
        UnpackedFloat.unpack .binary64 (packComponents .binary64 .positive exponent mantissa) =
          (UnpackedFloat.unpack .binary64 (packComponents .binary64 s exponent mantissa)).abs := by
      unfold UnpackedFloat.unpack
      simp only [unpackMantissa_packComponents, unpackExponent_packComponents,
        unpackSign_packComponents, Sign.ofBitVec_toBitVec]
      split
      · split <;> rfl
      · split
        · split <;> rfl
        · rfl
    unfold UnpackedFloat.abs Float.Model.unpack Float.Model.pack UnpackedFloat.pack
    simp only
    split
    · cases s <;> rfl
    · split
      · exact components _ _
      · exact components _ _

theorem abs_round (s : Sign) (m : ℕ) (e : ℤ) :
    (UnpackedFloat.round .binary64 s m e).abs = UnpackedFloat.round .binary64 .positive m e := by
  unfold UnpackedFloat.round roundWithAccuracy
  simp only
  split <;> rfl

theorem abs_normalize (m e : ℤ) (zero : Sign) :
    (UnpackedFloat.normalize .binary64 m e zero).abs =
      UnpackedFloat.normalize .binary64 m.natAbs e .positive := by
  unfold UnpackedFloat.normalize
  rcases lt_trichotomy m 0 with hm | rfl | hm
  · rw [Int.compare_eq_lt.mpr hm, Int.compare_eq_gt.mpr (show 0 < (m.natAbs : ℤ) by omega)]
    simp only [abs_round]
    congr 1
    omega
  · rfl
  · rw [Int.compare_eq_gt.mpr hm, Int.compare_eq_gt.mpr (show 0 < (m.natAbs : ℤ) by omega)]
    simp only [abs_round]
    congr 1
    omega

/-- The distance of numbers of opposite signs is the sum of their magnitudes. -/
theorem abs_sub_of_ne {s t : Sign} (h : s ≠ t) (m n : ℕ) (e f : ℤ) (hm : 0 < m) (hn : 0 < n) :
    (UnpackedFloat.sub .binary64 (.finite s m e hm) (.finite t n f hn)).abs =
      UnpackedFloat.add .binary64 (.finite .positive m e hm) (.finite .positive n f hn) := by
  unfold UnpackedFloat.sub UnpackedFloat.add
  simp only [abs_normalize]
  congr 1
  cases s <;> cases t <;> simp only [Sign.apply] <;> first | exact absurd rfl h | omega

/-- What is nearer to zero than the largest number does not overflow when it is normalized. -/
theorem exists_exact_normalize {m e : ℤ} (zero : Sign)
    (hv : |(m : ℚ) * 2 ^ e| < (2 ^ 53 - 1) * 2 ^ (971 : ℤ)) :
    ∃ r, exact (.ofModel (.pack (UnpackedFloat.normalize .binary64 m e zero))) = .finite r := by
  rw [abs_mul, abs_of_pos (show (0 : ℚ) < 2 ^ e by positivity), ← Int.cast_abs,
    Int.abs_eq_natAbs, Int.cast_natCast] at hv
  unfold UnpackedFloat.normalize
  rcases lt_trichotomy m 0 with hm | rfl | hm
  · rw [Int.compare_eq_lt.mpr hm]
    exact exists_exact_round (by omega) (by rwa [show (-m).toNat = m.natAbs by omega])
  · exact ⟨0, exact_pack_zero zero⟩
  · rw [Int.compare_eq_gt.mpr hm]
    exact exists_exact_round (by omega) (by rwa [show m.toNat = m.natAbs by omega])

theorem IsCanonical.le_largest {m : ℕ} {e : ℤ} (h : IsCanonical m e) :
    (m : ℚ) * 2 ^ e ≤ (2 ^ 53 - 1) * 2 ^ (971 : ℤ) := by
  have hm : (m : ℚ) ≤ 2 ^ 53 - 1 := by
    rw [le_sub_iff_add_le]
    exact_mod_cast h.lt
  have he := h.le
  gcongr
  norm_num

/-- The difference of numbers of one sign does not overflow. -/
theorem exists_exact_sub_of_sign (s : Sign) {m n : ℕ} {e f : ℤ} (hm : 0 < m) (hn : 0 < n)
    (hx : IsCanonical m e) (hy : IsCanonical n f) :
    ∃ r, exact (.ofModel (.pack (UnpackedFloat.sub .binary64 (.finite s m e hm)
      (.finite s n f hn)))) = .finite r := by
  refine exists_exact_normalize .positive ?_
  show |((s.apply (decreaseExponent m e (min e f)).1 -
    s.apply (decreaseExponent n f (min e f)).1 : ℤ) : ℚ) * 2 ^ min e f| < _
  rw [Int.cast_sub, sub_mul, apply_decreaseExponent s m (min_le_left e f),
    apply_decreaseExponent s n (min_le_right e f), apply_mul, apply_mul, abs_signed_sub, abs_lt]
  have hx0 := dyadic_pos hm e
  have hy0 := dyadic_pos hn f
  have hx1 := hx.le_largest
  have hy1 := hy.le_largest
  constructor <;> linarith

/-- Where the signs are opposite, the distance and the sum of the magnitudes overflow together. -/
theorem unpack_abs_add_abs {s t : Sign} {m n : ℕ} {e f : ℤ} {hm : 0 < m} {hn : 0 < n}
    (hx : x.toModel.unpack = .finite s m e hm) (hy : y.toModel.unpack = .finite t n f hn)
    (h : s ≠ t) :
    (Scalar.abs x + Scalar.abs y).toModel.unpack = (x - y).toModel.unpack.abs := by
  have hxabs : (Scalar.abs x).toModel.unpack = .finite .positive m e hm := by
    show (Float.Model.pack x.toModel.unpack.abs).unpack = _
    rw [hx]
    exact unpack_pack hm (isCanonical_of_unpack hx)
  have hyabs : (Scalar.abs y).toModel.unpack = .finite .positive n f hn := by
    show (Float.Model.pack y.toModel.unpack.abs).unpack = _
    rw [hy]
    exact unpack_pack hn (isCanonical_of_unpack hy)
  show (Float.Model.pack (UnpackedFloat.add .binary64 _ _)).unpack =
    (Float.Model.pack (UnpackedFloat.sub .binary64 _ _)).unpack.abs
  rw [hxabs, hyabs, hx, hy, ← unpack_pack_abs, abs_sub_of_ne h]

/-- Numbers whose distance and whose sum of magnitudes are infinite are equal up to tolerance. -/
theorem almostEqual_of_unpack_sub {s : Sign} (hsub : (x - y).toModel.unpack = .infinity s)
    (hsum : (Scalar.abs x + Scalar.abs y).toModel.unpack = .infinity .positive) :
    almostEqual x y = true := by
  have habs : (Scalar.abs (x - y)).toModel.unpack = .infinity .positive := by
    show (Float.Model.pack (x - y).toModel.unpack.abs).unpack = _
    rw [hsub]
    exact unpack_pack_infinity .positive
  have hscaled : (Scalar.abs (x - y) * Scalar.ofInt 4096).toModel.unpack = .infinity .positive := by
    show (Float.Model.pack (UnpackedFloat.mul .binary64 (Scalar.abs (x - y)).toModel.unpack
      (Scalar.ofInt 4096 : Float).toModel.unpack)).unpack = _
    rw [habs]
    exact unpack_pack_infinity .positive
  unfold almostEqual
  rw [decide_eq_true_iff]
  show decide ((_ : UnpackedFloat).le _ = true) = true
  rw [hscaled, hsum]
  rfl

/-- Finite numbers that the tolerance tells apart have a finite distance. -/
theorem isFinite_sub_of_almostEqual_eq_false (hx : Scalar.isFinite x = true)
    (hy : Scalar.isFinite y = true) (h : almostEqual x y = false) :
    Scalar.isFinite (x - y) = true := by
  obtain ⟨p, hp⟩ := exists_exact_eq hx
  obtain ⟨q, hq⟩ := exists_exact_eq hy
  have finite {r : ℚ} (hr : exact (.ofModel (.pack (UnpackedFloat.sub .binary64 x.toModel.unpack
      y.toModel.unpack))) = .finite r) : Scalar.isFinite (x - y) = true := isFinite_of_exact hr
  rcases exact_cases hp with ⟨s, hu, rfl⟩ | ⟨s, m, e, hm, hu, hc, rfl⟩
  · rw [hu, sub_eq_add] at finite
    exact finite (exact_pack_zero_add s (isValue_neg (isValue_of_exact hq))
      (value?_neg (exact_eq_finite_iff.mp hq)))
  rcases exact_cases hq with ⟨t, hv, rfl⟩ | ⟨t, n, f, hn, hv, hd, rfl⟩
  · rw [hv, sub_eq_add] at finite
    exact finite (exact_pack_add_zero (-t) (isValue_of_exact hp) (exact_eq_finite_iff.mp hp))
  by_cases hst : s = t
  · subst hst
    obtain ⟨r, hr⟩ := exists_exact_sub_of_sign s hm hn hc hd
    rw [hu, hv] at finite
    exact finite hr
  · have number : exact (x - y) ≠ .nan := by
      show exact (.ofModel (.pack (UnpackedFloat.sub .binary64 _ _))) ≠ .nan
      rw [hu, hv]
      exact exact_pack_ne_nan (normalize_ne_nan _ _ _)
    by_contra infinite
    obtain ⟨u, ho⟩ := exists_unpack_infinity number infinite
    have hsum := unpack_abs_add_abs hu hv hst
    rw [ho] at hsum
    rw [almostEqual_of_unpack_sub ho hsum] at h
    cases h

/-! ## Spacing -/

/-- A finite number is a multiple of a power of two, of at most 53 bits. -/
theorem exists_multiple (hx : exact x = .finite p) :
    ∃ j e : ℤ, -1074 ≤ e ∧ |(j : ℚ)| ≤ 2 ^ 53 ∧ p = j * 2 ^ e := by
  rcases exact_cases hx with ⟨s, -, rfl⟩ | ⟨s, m, e, hm, -, hc, rfl⟩
  · exact ⟨0, 0, by omega, by norm_num, by norm_num⟩
  · refine ⟨s.apply m, e, hc.ge, ?_, (apply_mul s m _).symm⟩
    have hm : (m : ℚ) ≤ 2 ^ 53 := by exact_mod_cast hc.lt.le
    cases s <;> simpa [Sign.apply] using hm

/-- Different multiples of powers of two are apart by the lesser power. -/
theorem two_zpow_le_abs_sub {j k e f : ℤ} (hef : e ≤ f)
    (h : (j : ℚ) * 2 ^ e ≠ k * 2 ^ f) : (2 : ℚ) ^ e ≤ |(j : ℚ) * 2 ^ e - k * 2 ^ f| := by
  obtain ⟨n, hn⟩ := Int.eq_ofNat_of_zero_le (show 0 ≤ f - e by omega)
  obtain rfl : f = e + n := by omega
  have hdiff : (j : ℚ) * 2 ^ e - k * 2 ^ (e + n) = (j - k * 2 ^ n : ℤ) * 2 ^ e := by
    rw [zpow_add₀ two_ne_zero, zpow_natCast]
    push_cast
    ring
  have hne : j - k * 2 ^ n ≠ 0 := by
    intro h0
    rw [h0, Int.cast_zero, zero_mul] at hdiff
    exact h (sub_eq_zero.mp hdiff)
  have hone : (1 : ℚ) ≤ |((j - k * 2 ^ n : ℤ) : ℚ)| := by exact_mod_cast Int.one_le_abs hne
  rw [hdiff, abs_mul, abs_of_pos (show (0 : ℚ) < 2 ^ e by positivity)]
  exact le_mul_of_one_le_left (by positivity) hone

/-- Different numbers are apart by the least number, and by a part in `2 ^ 54` of the first one. -/
theorem abs_le_of_ne (hx : exact x = .finite p) (hy : exact y = .finite q) (h : p ≠ q) :
    least ≤ |p - q| ∧ |p| ≤ 2 ^ 54 * |p - q| := by
  obtain ⟨j, e, he, hj, rfl⟩ := exists_multiple hx
  obtain ⟨k, f, hf, hk, rfl⟩ := exists_multiple hy
  have hepos : (0 : ℚ) < 2 ^ e := by positivity
  have hfpos : (0 : ℚ) < 2 ^ f := by positivity
  rcases le_total e f with hef | hfe
  · have hunit := two_zpow_le_abs_sub hef h
    refine ⟨(least_le_two_zpow he).trans hunit, ?_⟩
    rw [abs_mul, abs_of_pos hepos]
    have := mul_le_mul_of_nonneg_right hj hepos.le
    linarith
  · have hunit := two_zpow_le_abs_sub hfe h.symm
    rw [abs_sub_comm] at hunit
    refine ⟨(least_le_two_zpow hf).trans hunit, ?_⟩
    -- The second number is of at most 53 bits of its unit, and the first one is near it.
    have hother : |(k : ℚ) * 2 ^ f| ≤ 2 ^ 53 * 2 ^ f := by
      rw [abs_mul, abs_of_pos hfpos]
      exact mul_le_mul_of_nonneg_right hk hfpos.le
    have := abs_sub_abs_le_abs_sub ((j : ℚ) * 2 ^ e) (k * 2 ^ f)
    linarith

/-! ## What lies between -/

/-- Numbers equal up to tolerance have a distance of about one part in 4096. -/
theorem distance_le_of_almostEqual (hx : exact x = .finite p) (hy : exact y = .finite q)
    (hbound : 8192 * (|p| + |q|) ≤ greatest) (h : almostEqual x y = true) :
    |p - q| * 4096 ≤ 2 * (|p| + |q|) + 2 * least := by
  obtain ⟨l, s, hiff, hl, hs⟩ := exists_almostEqual_iff hx hy hbound
  have hls := hiff.mp h
  rw [abs_le] at hl hs
  linarith [abs_nonneg (p - q), abs_nonneg p, abs_nonneg q]

/-- Numbers that are nearer by some distance, and whose magnitudes are less by no more than that,
are equal up to tolerance where the others are. -/
theorem almostEqual_of_nearer {w : Float} {s δ : ℚ} (hx : exact x = .finite p)
    (hy : exact y = .finite q) (hz : exact z = .finite r) (hw : exact w = .finite s)
    (hxy : 8192 * (|p| + |q|) ≤ greatest) (hzw : 8192 * (|r| + |s|) ≤ greatest)
    (h : almostEqual x y = true) (hδ : least ≤ δ) (hfine : |p| + |q| ≤ 2 ^ 57 * δ)
    (hnear : |r - s| + δ ≤ |p - q|) (hsum : |p| + |q| ≤ |r| + |s| + δ) :
    almostEqual z w = true := by
  have hdistance := distance_le_of_almostEqual hx hy hxy h
  obtain ⟨l, t, hiff, hl, ht⟩ := exists_almostEqual_iff hx hy hxy
  obtain ⟨l', t', hiff', hl', ht'⟩ := exists_almostEqual_iff hz hw hzw
  have hlt := hiff.mp h
  rw [abs_le] at hl ht hl' ht'
  rw [hiff']
  linarith [abs_nonneg (r - s), least_pos]

/-- The tolerance looks at values only. -/
theorem almostEqual_congr_exact {w : Float} (hx : exact x = .finite p) (hy : exact y = .finite q)
    (hz : exact z = .finite p) (hw : exact w = .finite q) :
    almostEqual x y = almostEqual z w := by
  have hx' := exact_ne_nan (isFinite_of_exact hx)
  have hy' := exact_ne_nan (isFinite_of_exact hy)
  have hz' := exact_ne_nan (isFinite_of_exact hz)
  have hw' := exact_ne_nan (isFinite_of_exact hw)
  exact almostEqual_congr hx' hy' hz' hw' ((rank_eq_iff_exact hx' hz').mpr (hx.trans hz.symm))
    ((rank_eq_iff_exact hy' hw').mpr (hy.trans hw.symm))

/-- What lies between two numbers that are equal up to tolerance is equal to both. -/
theorem almostEqual_of_between (hx : exact x = .finite p) (hy : exact y = .finite q)
    (hz : exact z = .finite r) (hp : 8192 * (2 * |p|) ≤ greatest)
    (hr : 8192 * (2 * |r|) ≤ greatest) (hpq : p ≤ q) (hqr : q ≤ r)
    (h : almostEqual x z = true) : almostEqual x y = true ∧ almostEqual y z = true := by
  rcases hpq.eq_or_lt with rfl | hpq
  · rw [almostEqual_congr_exact hx hy hx hx, almostEqual_congr_exact hy hz hx hz]
    exact ⟨almostEqual_self_of_isFinite (isFinite_of_exact hx), h⟩
  rcases hqr.eq_or_lt with rfl | hqr
  · rw [almostEqual_congr_exact hx hy hx hz, almostEqual_congr_exact hy hz hz hz]
    exact ⟨h, almostEqual_self_of_isFinite (isFinite_of_exact hz)⟩
  have hpr : |p - r| = r - p := by rw [abs_sub_comm, abs_of_pos (by linarith)]
  have hq : 8192 * (|p| + |q|) ≤ greatest ∧ 8192 * (|q| + |r|) ≤ greatest := by
    rcases le_max_iff.mp (abs_le_max_abs_abs hpq.le hqr.le) with hq | hq <;>
      constructor <;> linarith
  have hdistance := distance_le_of_almostEqual hx hz (by linarith) h
  have hrp := abs_sub_abs_le_abs_sub r p
  have hpr' := abs_sub_abs_le_abs_sub p r
  rw [abs_sub_comm r p] at hrp
  constructor
  · obtain ⟨hleast, hunit⟩ := abs_le_of_ne hz hy hqr.ne'
    have hgap := abs_sub_abs_le_abs_sub r q
    have hnear : |p - q| = q - p := by rw [abs_sub_comm, abs_of_pos (by linarith)]
    rw [abs_of_pos (by linarith : 0 < r - q)] at hleast hunit hgap
    exact almostEqual_of_nearer hx hz hx hy (by linarith) hq.1 h hleast (by linarith) (by linarith)
      (by linarith)
  · obtain ⟨hleast, hunit⟩ := abs_le_of_ne hx hy hpq.ne
    have hgap := abs_sub_abs_le_abs_sub p q
    have hnear : |q - r| = r - q := by rw [abs_sub_comm, abs_of_pos (by linarith)]
    rw [abs_sub_comm p q, abs_of_pos (by linarith : 0 < q - p)] at hleast hunit hgap
    exact almostEqual_of_nearer hx hz hy hz (by linarith) hq.2 h hleast (by linarith) (by linarith)
      (by linarith)

end CueCheck.Binary64
