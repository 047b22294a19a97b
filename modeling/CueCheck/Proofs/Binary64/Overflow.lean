import CueCheck.Proofs.Binary64.Error

/-!
# Overflow of binary64 numbers

What is too great to be represented becomes infinite. It stays a number, but the tolerance does not
tell it from any other.

- **Signs** (`HasSign`): packing and rounding keep the sign, whatever overflows, and so does the sum
  of two numbers of one sign (`hasSign_add`).
- **NaN** (`add_ne_nan`, `mul_ne_nan`, `ofInt_ne_nan`): sums and products with a finite number are
  numbers, though they may be infinite. NaN comes of zero times infinity (`exact_zero_mul`), and
  stays (`exact_add_of_nan`).
- **Equality with itself** (`almostEqual_self_of_isFinite`): finite numbers equal themselves up to
  tolerance, also those whose doubles overflow.
- **Infinity** (`almostEqual_of_infinite`): it equals every finite number up to tolerance, for their
  distance and the sum of their magnitudes are both infinite.
- **The largest number** (`less_or_almostEqual_largest`): no number but infinity is past it.
-/

namespace CueCheck.Binary64

open Float.Model UnpackedFloat

variable {a b : UnpackedFloat} {x y t : Float} {s : Sign}

/-! ## Signs -/

/-- A zero, or a number or an infinity of the sign. -/
def HasSign (s : Sign) : UnpackedFloat → Prop
  | .infinity t => t = s
  | .zero _ => True
  | .finite t _ _ _ => t = s
  | .notANumber => False

theorem exists_hasSign (h : a ≠ .notANumber) : ∃ s, HasSign s a := by
  cases a with
  | notANumber => exact absurd rfl h
  | infinity s => exact ⟨s, rfl⟩
  | zero s => exact ⟨s, trivial⟩
  | finite s m e hm => exact ⟨s, rfl⟩

theorem HasSign.ne_nan (h : HasSign s a) : a ≠ .notANumber := by
  rintro rfl
  exact h

theorem unpack_pack_infinity (s : Sign) :
    (Float.Model.pack (.infinity s)).unpack = .infinity s := by
  cases s <;> rfl

theorem hasSign_unpack_packComponents {exponent : BitVec 11} {mantissa : BitVec 52}
    (h : exponent ≠ -1#11) :
    HasSign s (UnpackedFloat.unpack .binary64 (packComponents .binary64 s exponent mantissa)) := by
  unfold UnpackedFloat.unpack
  simp only [unpackMantissa_packComponents, unpackExponent_packComponents,
    unpackSign_packComponents]
  rw [if_neg h]
  split
  · split
    · trivial
    · cases s <;> rfl
  · cases s <;> rfl

theorem hasSign_unpack_pack (h : HasSign s a) : HasSign s (Float.Model.pack a).unpack := by
  cases a with
  | notANumber => cases h
  | infinity t => rwa [unpack_pack_infinity]
  | zero t => rwa [SameNumber.unpack_pack_zero]
  | finite t m e hm =>
    cases h
    have hbias : Format.binary64.exponentBias = 1023 := rfl
    unfold Float.Model.unpack Float.Model.pack UnpackedFloat.pack
    simp only
    split
    · show HasSign s (Float.Model.pack (.infinity s)).unpack
      rw [unpack_pack_infinity]
      rfl
    rename_i hb
    split
    · refine hasSign_unpack_packComponents fun h => ?_
      have := congrArg BitVec.toNat h
      rw [BitVec.toNat_ofNat, show (-1#11).toNat = 2047 from rfl] at this
      simp [hbias] at hb
      omega
    · exact hasSign_unpack_packComponents (by decide)

theorem hasSign_round (s : Sign) (m : ℕ) (e : ℤ) :
    HasSign s (UnpackedFloat.round .binary64 s m e) := by
  unfold UnpackedFloat.round roundWithAccuracy
  simp only
  split
  · trivial
  · rfl

theorem hasSign_abs (h : a ≠ .notANumber) : HasSign .positive a.abs := by
  cases a with
  | notANumber => exact absurd rfl h
  | infinity s => rfl
  | zero s => trivial
  | finite s m e hm => rfl

/-- The sum of two magnitudes is one, or overflows to positive infinity. -/
theorem hasSign_add (ha : HasSign .positive a) (hb : HasSign .positive b) :
    HasSign .positive (UnpackedFloat.add .binary64 a b) := by
  cases a with
  | notANumber => cases ha
  | infinity s =>
    cases b with
    | notANumber => cases hb
    | infinity t =>
      cases ha
      cases hb
      rfl
    | zero t => exact ha
    | finite t n f hn => exact ha
  | zero s =>
    cases b with
    | notANumber => cases hb
    | infinity t => exact hb
    | zero t => cases s <;> cases t <;> trivial
    | finite t n f hn => exact hb
  | finite s m e hm =>
    cases ha
    cases b with
    | notANumber => cases hb
    | infinity t => exact hb
    | zero t => rfl
    | finite t n f hn =>
      cases hb
      unfold UnpackedFloat.add UnpackedFloat.normalize
      simp only [Sign.apply]
      split
      · rename_i hlt
        rw [Int.compare_eq_lt] at hlt
        omega
      · trivial
      · exact hasSign_round _ _ _

/-! ## NaN -/

theorem unpack_pack_ne_nan (h : a ≠ .notANumber) :
    (Float.Model.pack a).unpack ≠ .notANumber := by
  obtain ⟨s, hs⟩ := exists_hasSign h
  exact (hasSign_unpack_pack hs).ne_nan

theorem exact_pack_ne_nan (h : a ≠ .notANumber) : exact (.ofModel (.pack a)) ≠ .nan :=
  exact_eq_nan_iff.not.mpr (unpack_pack_ne_nan h)

theorem roundWithAccuracy_ne_nan (s : Sign) (m : ℕ) (e : ℤ) (t : Accuracy) :
    roundWithAccuracy .binary64 s m e t ≠ .notANumber := by
  unfold roundWithAccuracy
  simp only
  split <;> simp

theorem normalize_ne_nan (m e : ℤ) (zero : Sign) :
    UnpackedFloat.normalize .binary64 m e zero ≠ .notANumber := by
  unfold UnpackedFloat.normalize
  split
  · exact roundWithAccuracy_ne_nan _ _ _ _
  · simp
  · exact roundWithAccuracy_ne_nan _ _ _ _

theorem unpack_of_isFinite (h : Scalar.isFinite x = true) :
    (∃ s, x.toModel.unpack = .zero s) ∨ ∃ s m e hm, x.toModel.unpack = .finite s m e hm := by
  obtain ⟨q, hq⟩ := exists_exact_eq h
  have := isValue_of_exact hq
  cases hu : x.toModel.unpack with
  | notANumber => rw [hu] at this; cases this
  | infinity s => rw [hu] at this; cases this
  | zero s => exact .inl ⟨s, rfl⟩
  | finite s m e hm => exact .inr ⟨s, m, e, hm, rfl⟩

theorem add_ne_nan (hx : exact x ≠ .nan) (hy : exact y ≠ .nan)
    (h : Scalar.isFinite x = true ∨ Scalar.isFinite y = true) : exact (x + y) ≠ .nan := by
  have not_finite {z : Float} {s : Sign} (hz : Scalar.isFinite z = true) :
      z.toModel.unpack ≠ .infinity s := by
    rcases unpack_of_isFinite hz with ⟨t, ht⟩ | ⟨t, n, f, hn, ht⟩ <;> simp [ht]
  rw [Ne, exact_eq_nan_iff] at hx hy
  refine exact_pack_ne_nan ?_
  cases hu : x.toModel.unpack with
  | notANumber => exact absurd hu hx
  | infinity s =>
    cases hv : y.toModel.unpack with
    | notANumber => exact absurd hv hy
    | infinity t => exact absurd h (not_or.mpr ⟨(not_finite · hu), (not_finite · hv)⟩)
    | zero t => simp [UnpackedFloat.add]
    | finite t n f hn => simp [UnpackedFloat.add]
  | zero s =>
    cases hv : y.toModel.unpack with
    | notANumber => exact absurd hv hy
    | infinity t => simp [UnpackedFloat.add]
    | zero t => cases s <;> cases t <;> simp [UnpackedFloat.add]
    | finite t n f hn => simp [UnpackedFloat.add]
  | finite s m e hm =>
    cases hv : y.toModel.unpack with
    | notANumber => exact absurd hv hy
    | infinity t => simp [UnpackedFloat.add]
    | zero t => simp [UnpackedFloat.add]
    | finite t n f hn => exact normalize_ne_nan _ _ _

theorem mul_ne_nan (hx : exact x ≠ .nan) (hy : Scalar.isFinite y = true)
    (h0 : exact y ≠ .finite 0) : exact (x * y) ≠ .nan := by
  rw [Ne, exact_eq_nan_iff] at hx
  refine exact_pack_ne_nan ?_
  rcases unpack_of_isFinite hy with ⟨t, ht⟩ | ⟨t, n, f, hn, ht⟩
  · exact absurd (exact_eq_finite_iff.mpr (by rw [ht]; rfl)) h0
  · rw [ht]
    cases hu : x.toModel.unpack with
    | notANumber => exact absurd hu hx
    | infinity s => simp [UnpackedFloat.mul]
    | zero s => simp [UnpackedFloat.mul]
    | finite s m e hm => exact roundWithAccuracy_ne_nan _ _ _ _

theorem mul_ne_nan_of_isFinite (hx : Scalar.isFinite x = true) (hy : Scalar.isFinite y = true) :
    exact (x * y) ≠ .nan := by
  refine exact_pack_ne_nan ?_
  rcases unpack_of_isFinite hx with ⟨s, hs⟩ | ⟨s, m, e, hm, hs⟩ <;>
    rcases unpack_of_isFinite hy with ⟨t, ht⟩ | ⟨t, n, f, hn, ht⟩ <;> rw [hs, ht]
  · simp [UnpackedFloat.mul]
  · simp [UnpackedFloat.mul]
  · simp [UnpackedFloat.mul]
  · exact roundWithAccuracy_ne_nan _ _ _ _

/-- A sum with NaN is NaN. -/
theorem exact_add_of_nan (h : exact x = .nan ∨ exact y = .nan) : exact (x + y) = .nan := by
  rw [exact_eq_nan_iff]
  show (Float.Model.pack (UnpackedFloat.add .binary64 _ _)).unpack = _
  rcases h with h | h
  · rw [exact_eq_nan_iff.mp h]
    exact unpack_pack_nan
  · rw [exact_eq_nan_iff.mp h]
    cases x.toModel.unpack <;> exact unpack_pack_nan

/-- Zero times infinity is NaN. -/
theorem exact_zero_mul (h : x.toModel.unpack = .infinity s) :
    exact (Scalar.ofInt 0 * x) = .nan := by
  rw [exact_eq_nan_iff]
  show (Float.Model.pack (UnpackedFloat.mul .binary64 (.zero .positive) _)).unpack = _
  rw [h]
  exact unpack_pack_nan

theorem ofInt_ne_nan (n : ℕ) : exact (Scalar.ofInt n) ≠ .nan := by
  show exact (Float.ofScientific n false 0) ≠ .nan
  rcases Nat.lt_or_ge n (2 ^ 53) with hlt | hge
  · rw [ofScientific_of_lt hlt]
    refine mul_ne_nan (exact_pack_ne_nan (normalize_ne_nan _ _ _)) (by decide +kernel) ?_
    rw [exact_one]
    simp
  · rw [ofScientific_of_le hge]
    exact exact_pack_ne_nan (roundWithAccuracy_ne_nan _ _ _ _)

/-! ## Equality with itself -/

/-- A zero is not above a magnitude. -/
theorem le_of_hasSign (hx : x.toModel.unpack = .zero s)
    (hy : HasSign .positive y.toModel.unpack) : x ≤ y := by
  show decide ((x.toModel.unpack.le y.toModel.unpack) = true) = true
  rw [hx, decide_eq_true_iff]
  generalize y.toModel.unpack = b at hy
  cases b with
  | notANumber => cases hy
  | infinity t => cases hy; rfl
  | zero t => rfl
  | finite t n f hn => cases hy; rfl

theorem unpack_sub_self (h : Scalar.isFinite x = true) : ∃ s, (x - x).toModel.unpack = .zero s := by
  show ∃ s, (Float.Model.pack (UnpackedFloat.sub .binary64 _ _)).unpack = .zero s
  rcases unpack_of_isFinite h with ⟨s, hs⟩ | ⟨s, m, e, hm, hs⟩ <;> rw [hs]
  · obtain ⟨u, hu⟩ := SameNumber.exists_sub_zero_zero .binary64 s s
    rw [hu]
    exact ⟨u, SameNumber.unpack_pack_zero u⟩
  · refine ⟨.positive, ?_⟩
    unfold UnpackedFloat.sub UnpackedFloat.normalize
    simp only [sub_self]
    exact SameNumber.unpack_pack_zero _

theorem unpack_abs_of_zero (h : x.toModel.unpack = .zero s) :
    (Scalar.abs x).toModel.unpack = .zero .positive := by
  show (Float.Model.pack x.toModel.unpack.abs).unpack = _
  rw [h]
  exact SameNumber.unpack_pack_zero _

theorem unpack_mul_of_zero (hx : x.toModel.unpack = .zero s) (hy : Scalar.isFinite y = true) :
    ∃ t, (x * y).toModel.unpack = .zero t := by
  show ∃ t, (Float.Model.pack (UnpackedFloat.mul .binary64 _ _)).unpack = .zero t
  rw [hx]
  rcases unpack_of_isFinite hy with ⟨t, ht⟩ | ⟨t, m, e, hm, ht⟩ <;> rw [ht] <;>
    exact ⟨_, SameNumber.unpack_pack_zero _⟩

/-- Every finite number equals itself up to tolerance, also where the sum of the two magnitudes
overflows. -/
theorem almostEqual_self_of_isFinite (h : Scalar.isFinite x = true) : almostEqual x x = true := by
  have hn : x.toModel.unpack ≠ .notANumber := exact_eq_nan_iff.not.mp (exact_ne_nan h)
  have habs : HasSign .positive (Scalar.abs x).toModel.unpack :=
    hasSign_unpack_pack (hasSign_abs hn)
  have hsum : HasSign .positive (Scalar.abs x + Scalar.abs x).toModel.unpack :=
    hasSign_unpack_pack (hasSign_add habs habs)
  obtain ⟨s, hs⟩ := unpack_sub_self h
  obtain ⟨t, ht⟩ := unpack_mul_of_zero (unpack_abs_of_zero hs)
    (show Scalar.isFinite (Scalar.ofInt 4096 : Float) = true by decide +kernel)
  unfold almostEqual
  exact decide_eq_true (le_of_hasSign ht hsum)

/-! ## Infinity -/

/-- Positive infinity. -/
def infinity : Float :=
  .ofModel (.pack (.infinity .positive))

/-- The largest finite number, `2 ^ 1024 - 2 ^ 971`. -/
def largest : Float :=
  .ofBits 0x7FEFFFFFFFFFFFFF

theorem infinity_sub (ht : Scalar.isFinite t = true) : infinity - t = infinity := by
  show Float.ofModel (.pack (UnpackedFloat.sub .binary64 (.infinity .positive) _)) = _
  rcases unpack_of_isFinite ht with ⟨s, hs⟩ | ⟨s, m, e, hm, hs⟩ <;> rw [hs] <;> rfl

theorem infinity_add (ht : Scalar.isFinite t = true) : infinity + t = infinity := by
  show Float.ofModel (.pack (UnpackedFloat.add .binary64 (.infinity .positive) _)) = _
  rcases unpack_of_isFinite ht with ⟨s, hs⟩ | ⟨s, m, e, hm, hs⟩ <;> rw [hs] <;> rfl

theorem isFinite_of_exact {q : ℚ} (h : exact x = .finite q) : Scalar.isFinite x = true := by
  unfold Scalar.isFinite
  rw [show Scalar.exact x = .finite q from h]

/-- A number that is not finite is an infinity. -/
theorem exists_unpack_infinity (number : exact x ≠ .nan) (infinite : ¬Scalar.isFinite x = true) :
    ∃ s, x.toModel.unpack = .infinity s := by
  cases hu : x.toModel.unpack with
  | notANumber => exact absurd (exact_eq_nan_iff.mpr hu) number
  | infinity s => exact ⟨s, rfl⟩
  | zero s => exact absurd (isFinite_of_exact (exact_eq_finite_iff.mpr (by rw [hu]; rfl))) infinite
  | finite s m e hm =>
    exact absurd (isFinite_of_exact (exact_eq_finite_iff.mpr (by rw [hu]; rfl))) infinite

theorem isFinite_abs (ht : Scalar.isFinite t = true) : Scalar.isFinite (Scalar.abs t) = true := by
  obtain ⟨q, hq⟩ := exists_exact_eq ht
  exact isFinite_of_exact (exact_abs hq)

theorem unpack_infinity : infinity.toModel.unpack = .infinity .positive := rfl

theorem exact_eq_infinite_iff :
    exact x = .infinite false ↔ x.toModel.unpack = .infinity .positive := by
  unfold exact dyadic?
  cases x.toModel.unpack with
  | notANumber => simp
  | infinity s => cases s <;> simp
  | zero s => simp
  | finite s m e => cases s <;> simp

theorem rank_eq_rank_infinity (h : exact x = .infinite false) : rank x = rank infinity := by
  unfold rank
  rw [exact_eq_infinite_iff.mp h, unpack_infinity]

/-- What has overflowed equals every finite number up to tolerance. -/
theorem almostEqual_of_infinite (hx : exact x = .infinite false)
    (ht : Scalar.isFinite t = true) : almostEqual x t = true := by
  have hself : Scalar.abs infinity = infinity := by decide +kernel
  have hinfinity : exact infinity = .infinite false := exact_eq_infinite_iff.mpr unpack_infinity
  rw [almostEqual_congr (by rw [hx]; simp) (exact_ne_nan ht) (by rw [hinfinity]; simp)
    (exact_ne_nan ht) (rank_eq_rank_infinity hx) rfl]
  unfold almostEqual
  rw [infinity_sub ht, hself, infinity_add (isFinite_abs ht)]
  decide +kernel

theorem rank_largest : rank largest = toLex (1, toLex (971, 2 ^ 53 - 1)) := by
  decide +kernel

theorem rank_le_largest {q : ℚ} (h : exact x = .finite q) : rank x ≤ rank largest := by
  rw [rank_largest]
  unfold rank rankOf
  rcases exact_cases h with ⟨s, hs, -⟩ | ⟨s, m, e, hm, hs, hc, -⟩
  · rw [hs]
    exact Prod.Lex.toLex_le_toLex.mpr (.inl Int.zero_lt_one)
  · rw [hs]
    cases s with
    | negative => exact Prod.Lex.toLex_le_toLex.mpr (.inl (show (-1 : ℤ) < 1 by decide))
    | positive =>
      refine Prod.Lex.toLex_le_toLex.mpr (.inr ⟨rfl, Prod.Lex.toLex_le_toLex.mpr ?_⟩)
      have hm : (m : ℤ) ≤ 2 ^ 53 - 1 := by
        have := hc.lt
        omega
      exact (lt_or_eq_of_le hc.le).imp_right fun he => ⟨he, hm⟩

theorem isFinite_largest : Scalar.isFinite largest = true := by
  decide +kernel

/-- No number but infinity is past the largest finite one. -/
theorem less_or_almostEqual_largest (h : exact x ≠ .nan) (hx : exact x ≠ .infinite false) :
    (Scalar.less x largest || almostEqual x largest) = true := by
  have hlargest := exact_ne_nan isFinite_largest
  have hle : rank x ≤ rank largest := by
    cases hu : x.toModel.unpack with
    | notANumber => exact absurd (exact_eq_nan_iff.mpr hu) h
    | infinity s =>
      cases s with
      | negative =>
        rw [rank_largest]
        unfold rank
        rw [hu]
        exact Prod.Lex.toLex_le_toLex.mpr (.inl (show (-2 : ℤ) < 1 by decide))
      | positive => exact absurd (exact_eq_infinite_iff.mpr hu) hx
    | zero s => exact rank_le_largest (exact_eq_finite_iff.mpr (by rw [hu]; rfl))
    | finite s m e hm => exact rank_le_largest (exact_eq_finite_iff.mpr (by rw [hu]; rfl))
  rw [Bool.or_eq_true]
  rcases lt_or_eq_of_le hle with hlt | heq
  · left
    rw [less_eq h hlargest]
    exact decide_eq_true hlt
  · right
    rw [almostEqual_congr h hlargest hlargest hlargest heq rfl]
    decide +kernel

end CueCheck.Binary64
