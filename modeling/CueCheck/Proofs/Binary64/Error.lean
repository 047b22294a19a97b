import CueCheck.Proofs.Binary64.Rounding

/-!
# Rounding errors of the arithmetic

Where the exact result of an operation on finite numbers is not above `greatest`, the result is
finite, and near the exact one.

- **Sums and differences** (`add_error`, `sub_error`): off by one part in `2 ^ 52` at most.
- **Products and quotients** (`mul_error`, `div_error`): by that, and the least number more.
- **Whole numbers** (`ofInt_error`): by one part in `2 ^ 50` at most.
- **The tolerance** (`almostEqual_eq_false`): numbers that are further apart than one part in 4000
  are told apart, whatever the rounding.
-/

namespace CueCheck.Binary64

open Float.Model UnpackedFloat

/-! ## Sums and differences -/

section Unpacked

variable {a b : UnpackedFloat} {p q : ℚ}

/-- Packing a zero or a number in canonical form keeps its value. -/
theorem exact_pack (ha : IsValue a) (hp : value? a = some p) :
    exact (.ofModel (.pack a)) = .finite p := by
  rw [exact_eq_finite_iff, ← hp]
  show value? (Float.Model.pack a).unpack = _
  cases a with
  | notANumber => cases ha
  | infinity s => cases ha
  | zero s => rw [SameNumber.unpack_pack_zero]
  | finite s m e hm => rw [unpack_pack hm ha]

theorem apply_decreaseExponent (s : Sign) (m : ℕ) {e t : ℤ} (h : t ≤ e) :
    (s.apply (decreaseExponent m e t).1 : ℚ) * 2 ^ t = s.apply m * 2 ^ e := by
  have hvalue : ((m <<< (e - t).toNat : ℕ) : ℚ) * 2 ^ t = m * 2 ^ e := by
    obtain ⟨k, hk⟩ := Int.eq_ofNat_of_zero_le (show 0 ≤ e - t by omega)
    obtain rfl : e = t + k := by omega
    rw [add_sub_cancel_left, Int.toNat_natCast, Nat.shiftLeft_eq, zpow_add₀ (by norm_num),
      zpow_natCast]
    push_cast
    ring
  rw [apply_mul, apply_mul]
  exact congrArg _ hvalue

/-- Adding to zero keeps a value, but for the sign of a zero. -/
theorem exact_pack_zero_add (s : Sign) (hb : IsValue b) (hq : value? b = some q) :
    exact (.ofModel (.pack (UnpackedFloat.add .binary64 (.zero s) b))) = .finite q := by
  cases b with
  | notANumber => cases hb
  | infinity t => cases hb
  | zero t =>
    cases hq
    cases s <;> cases t <;> exact exact_pack trivial rfl
  | finite t n f hn => exact exact_pack hb hq

theorem exact_pack_add_zero (s : Sign) (ha : IsValue a) (hp : value? a = some p) :
    exact (.ofModel (.pack (UnpackedFloat.add .binary64 a (.zero s)))) = .finite p := by
  cases a with
  | notANumber => cases ha
  | infinity t => cases ha
  | zero t => exact exact_pack_zero_add t trivial hp
  | finite t n f hn => exact exact_pack ha hp

/-- A sum is the exact one, or it is rounded from a mantissa for the lesser exponent. -/
theorem exact_pack_add_cases (ha : IsValue a) (hb : IsValue b) (hp : value? a = some p)
    (hq : value? b = some q) :
    exact (.ofModel (.pack (UnpackedFloat.add .binary64 a b))) = .finite (p + q) ∨
      ∃ m e : ℤ, -1074 ≤ e ∧ p + q = m * 2 ^ e ∧
        UnpackedFloat.add .binary64 a b = .normalize .binary64 m e .positive := by
  cases a with
  | notANumber => cases ha
  | infinity s => cases ha
  | zero s =>
    cases hp
    rw [zero_add]
    exact .inl (exact_pack_zero_add s hb hq)
  | finite s m e hm =>
    cases b with
    | notANumber => cases hb
    | infinity t => cases hb
    | zero t =>
      cases hq
      rw [add_zero]
      exact .inl (exact_pack_add_zero t ha hp)
    | finite t n f hn =>
      cases hp
      cases hq
      refine .inr ⟨s.apply (decreaseExponent m e (min e f)).1 +
        t.apply (decreaseExponent n f (min e f)).1, min e f, le_min ha.ge hb.ge, ?_, rfl⟩
      rw [Int.cast_add, add_mul, apply_decreaseExponent s m (min_le_left e f),
        apply_decreaseExponent t n (min_le_right e f)]

/-- A sum is off by one part in `2 ^ 52` at most: no bits are lost below the least number. -/
theorem exact_pack_add (ha : IsValue a) (hb : IsValue b) (hp : value? a = some p)
    (hq : value? b = some q) (h : |p + q| ≤ greatest) :
    ∃ r, exact (.ofModel (.pack (UnpackedFloat.add .binary64 a b))) = .finite r ∧
      |r - (p + q)| ≤ |p + q| / 2 ^ 52 := by
  rcases exact_pack_add_cases ha hb hp hq with whole | ⟨m, e, he, hsum, hadd⟩
  · refine ⟨p + q, whole, ?_⟩
    rw [sub_self, abs_zero]
    positivity
  · rw [hsum] at h ⊢
    rw [hadd]
    exact exact_normalize_error .positive he h

theorem apply_neg (s : Sign) (n : ℤ) : (-s).apply n = -s.apply n := by
  cases s
  · exact (neg_neg n).symm
  · rfl

/-- A difference is the sum with the negative. -/
theorem sub_eq_add (f : Format) (a b : UnpackedFloat) :
    UnpackedFloat.sub f a b = UnpackedFloat.add f a b.neg := by
  cases a with
  | finite s m e hm =>
    cases b with
    | finite t n g hn =>
      show UnpackedFloat.normalize f (_ - t.apply _) _ _ =
        UnpackedFloat.normalize f (_ + (-t).apply _) _ _
      rw [apply_neg, ← sub_eq_add_neg]
    | _ => rfl
  | _ => cases b <;> rfl

theorem isValue_neg (hb : IsValue b) : IsValue b.neg := by
  cases b <;> exact hb

theorem value?_neg (hq : value? b = some q) : value? b.neg = some (-q) := by
  cases b with
  | notANumber => cases hq
  | infinity s => cases hq
  | zero s => cases hq; rfl
  | finite s m e hm =>
    cases hq
    cases s <;> simp [value?, UnpackedFloat.neg, Sign.apply]

end Unpacked

section

variable {x y : Float} {p q : ℚ}

theorem add_error (hx : exact x = .finite p) (hy : exact y = .finite q) (h : |p + q| ≤ greatest) :
    ∃ r, exact (x + y) = .finite r ∧ |r - (p + q)| ≤ |p + q| / 2 ^ 52 :=
  exact_pack_add (isValue_of_exact hx) (isValue_of_exact hy) (exact_eq_finite_iff.mp hx)
    (exact_eq_finite_iff.mp hy) h

theorem sub_error (hx : exact x = .finite p) (hy : exact y = .finite q) (h : |p - q| ≤ greatest) :
    ∃ r, exact (x - y) = .finite r ∧ |r - (p - q)| ≤ |p - q| / 2 ^ 52 := by
  show ∃ r, exact (.ofModel (.pack (UnpackedFloat.sub .binary64 _ _))) = .finite r ∧ _
  rw [sub_eq_add]
  rw [sub_eq_add_neg] at h ⊢
  exact exact_pack_add (isValue_of_exact hx) (isValue_neg (isValue_of_exact hy))
    (exact_eq_finite_iff.mp hx) (value?_neg (exact_eq_finite_iff.mp hy)) h

/-- A finite number is a zero or a canonical number of one sign. -/
theorem exact_cases (hx : exact x = .finite p) :
    (∃ s, x.toModel.unpack = .zero s ∧ p = 0) ∨
      ∃ s m e, ∃ hm : 0 < m, x.toModel.unpack = .finite s m e hm ∧ IsCanonical m e ∧
        p = signed s (m * 2 ^ e) := by
  have hv := isValue_of_exact hx
  have hp := exact_eq_finite_iff.mp hx
  cases hu : x.toModel.unpack with
  | notANumber => rw [hu] at hv; cases hv
  | infinity s => rw [hu] at hv; cases hv
  | zero s =>
    rw [hu] at hp
    exact .inl ⟨s, rfl, (Option.some.inj hp).symm⟩
  | finite s m e hm =>
    rw [hu] at hp hv
    exact .inr ⟨s, m, e, hm, rfl, hv, (Option.some.inj hp).symm.trans (apply_mul s m _)⟩

theorem exact_pack_zero (s : Sign) : exact (.ofModel (.pack (.zero s))) = .finite 0 :=
  exact_pack trivial rfl

theorem abs_signed (s : Sign) {v : ℚ} (hv : 0 ≤ v) : |signed s v| = v := by
  cases s
  · exact (abs_neg v).trans (abs_of_nonneg hv)
  · exact abs_of_nonneg hv

theorem exact_abs (hx : exact x = .finite p) : exact (Scalar.abs x) = .finite |p| := by
  show exact (.ofModel (.pack x.toModel.unpack.abs)) = _
  rcases exact_cases hx with ⟨s, hu, rfl⟩ | ⟨s, m, e, hm, hu, hc, rfl⟩
  · rw [hu, abs_zero]
    exact exact_pack_zero _
  · rw [hu, abs_signed s (dyadic_pos hm e).le]
    exact exact_pack (a := .finite .positive m e hm) hc rfl

theorem exact_add_zero (hx : exact x = .finite p) : exact (x + Scalar.zero) = .finite p :=
  exact_pack_add_zero .positive (isValue_of_exact hx) (exact_eq_finite_iff.mp hx)

/-! ## Products and quotients -/

theorem signed_mul (s t : Sign) (v w : ℚ) : signed s v * signed t w = signed (s * t) (v * w) := by
  cases s <;> cases t
  · exact neg_mul_neg v w
  · exact neg_mul v w
  · exact mul_neg v w
  · rfl

theorem signed_div (s t : Sign) (v w : ℚ) : signed s v / signed t w = signed (s / t) (v / w) := by
  cases s <;> cases t
  · exact neg_div_neg_eq v w
  · exact neg_div w v
  · exact div_neg v
  · rfl

theorem le_target_mul {m n : ℕ} {e f : ℤ} (hm : 0 < m) (hn : 0 < n) (h : IsCanonical m e)
    (h' : IsCanonical n f) : e + f ≤ target (m * n) (e + f) := by
  have log2_le {k : ℕ} (hk : 2 ^ 52 ≤ k) (hle : k ≤ m * n) : 52 ≤ (m * n).log2 :=
    (Nat.le_log2 (Nat.mul_pos hm hn).ne').mpr (hk.trans hle)
  unfold target
  rcases h.normal with hb | he
  · have := log2_le hb (Nat.le_mul_of_pos_right m hn)
    omega
  · rcases h'.normal with hb | hf
    · have := log2_le hb (Nat.le_mul_of_pos_left n hm)
      omega
    · omega

/-- A product is rounded from the product of the mantissas, unless it is zero. -/
theorem exact_mul_cases (hx : exact x = .finite p) (hy : exact y = .finite q) :
    (p * q = 0 ∧ exact (x * y) = .finite 0) ∨
      ∃ (s : Sign) (m : ℕ) (e : ℤ), e ≤ target m e ∧ p * q = signed s (m * 2 ^ e) ∧
        x * y = .ofModel (.pack (roundWithAccuracy .binary64 s m e .exact)) := by
  have product : x * y =
    .ofModel (.pack (UnpackedFloat.mul .binary64 x.toModel.unpack y.toModel.unpack)) := rfl
  rw [product]
  rcases exact_cases hx with ⟨s, hux, rfl⟩ | ⟨s, m, e, hm, hux, hcx, rfl⟩
  · rw [hux]
    rcases exact_cases hy with ⟨t, huy, rfl⟩ | ⟨t, n, f, hn, huy, -, rfl⟩ <;> rw [huy]
    · exact .inl ⟨zero_mul _, exact_pack_zero _⟩
    · exact .inl ⟨zero_mul _, exact_pack_zero _⟩
  · rw [hux]
    rcases exact_cases hy with ⟨t, huy, rfl⟩ | ⟨t, n, f, hn, huy, hcy, rfl⟩ <;> rw [huy]
    · exact .inl ⟨mul_zero _, exact_pack_zero _⟩
    · have hvalue : (m : ℚ) * 2 ^ e * (n * 2 ^ f) = (m * n : ℕ) * 2 ^ (e + f) := by
        rw [zpow_add₀ (by norm_num)]
        push_cast
        ring
      refine .inr ⟨s * t, m * n, e + f, le_target_mul hm hn hcx hcy, ?_, rfl⟩
      rw [signed_mul, hvalue]

/-- A product is off by one part in `2 ^ 52` and the least number at most. -/
theorem mul_error (hx : exact x = .finite p) (hy : exact y = .finite q) (h : |p * q| ≤ greatest) :
    ∃ r, exact (x * y) = .finite r ∧ |r - p * q| ≤ |p * q| / 2 ^ 52 + least := by
  rcases exact_mul_cases hx hy with ⟨h0, hzero⟩ | ⟨s, m, e, he, hvalue, hproduct⟩
  · refine ⟨0, hzero, ?_⟩
    rw [h0, sub_self, abs_zero, zero_div, zero_add]
    exact least_pos.le
  · rw [hvalue, abs_signed s (by positivity)] at h ⊢
    rw [hproduct]
    refine exact_round_error he le_rfl ?_ h
    gcongr
    linarith

/-- The exponent of a quotient before rounding. -/
def quotientExponent (m : ℕ) (e : ℤ) (n : ℕ) (f : ℤ) : ℤ :=
  min (e - f) (max (m.log2 + e - (n.log2 + f) - 53) (-1074))

theorem divCore_eq (m : ℕ) (e : ℤ) (n : ℕ) (f : ℤ) :
    let k := (e - f - quotientExponent m e n f).toNat
    divCore .binary64 m e n f = ((m <<< k) / n, quotientExponent m e n f,
      accuracyOfFraction ((m <<< k) % n) n) := by
  have htotal : Format.binary64.targetExponent (totalExponent m e - totalExponent n f) =
      max (m.log2 + e - (n.log2 + f) - 53) (-1074) := by
    have hbits : Format.binary64.mantissaBits = 53 := rfl
    have hmin : Format.binary64.minExponent = -1074 := rfl
    unfold Format.targetExponent totalExponent
    rw [hbits, hmin]
    omega
  unfold divCore
  rw [htotal]
  rfl

/-- A quotient is cut off far enough to the right for its mantissa to be rounded. -/
theorem quotientExponent_le {m n : ℕ} {e f : ℤ} (hm : 0 < m) (hn : 0 < n) :
    quotientExponent m e n f ≤
      target ((m <<< (e - f - quotientExponent m e n f).toNat) / n) (quotientExponent m e n f) := by
  obtain ⟨k, hk⟩ : ∃ k, k = (e - f - quotientExponent m e n f).toNat := ⟨_, rfl⟩
  rw [← hk]
  unfold target
  by_cases hlow : quotientExponent m e n f ≤ -1074
  · exact hlow.trans (le_max_right _ _)
  · have hbits : 52 + (n.log2 + 1) ≤ m.log2 + k := by
      unfold quotientExponent at hk hlow
      omega
    have hfull : 2 ^ 52 ≤ (m <<< k) / n := by
      rw [Nat.le_div_iff_mul_le hn, Nat.shiftLeft_eq]
      calc 2 ^ 52 * n ≤ 2 ^ 52 * 2 ^ (n.log2 + 1) :=
            Nat.mul_le_mul_left _ Nat.lt_log2_self.le
        _ = 2 ^ (52 + (n.log2 + 1)) := (pow_add _ _ _).symm
        _ ≤ 2 ^ (m.log2 + k) := Nat.pow_le_pow_right (by decide) hbits
        _ = 2 ^ m.log2 * 2 ^ k := pow_add _ _ _
        _ ≤ m * 2 ^ k := Nat.mul_le_mul_right _ (Nat.log2_self_le hm.ne')
    have hlog := (Nat.le_log2 (by omega)).mpr hfull
    omega

/-- What is left over tells how much of a quotient was cut off. -/
theorem isCut_div (m : ℕ) {n : ℕ} (hn : 0 < n) :
    IsCut (.ofMantissaAndAccuracy (m / n) (accuracyOfFraction (m % n) n)) ((m : ℚ) / n) := by
  have hn' : (0 : ℚ) < n := Nat.cast_pos.mpr hn
  have parts : (m : ℚ) = (m / n : ℕ) * n + (m % n : ℕ) := by
    exact_mod_cast (Nat.div_add_mod' m n).symm
  refine ⟨?_, ?_, fun whole => ?_, fun less => ?_⟩
  · rw [mantissa_ofMantissaAndAccuracy]
    exact Nat.cast_div_le
  · rw [mantissa_ofMantissaAndAccuracy, div_lt_iff₀ hn']
    exact_mod_cast Nat.lt_mul_of_div_lt (Nat.lt_succ_self _) hn
  · rw [mantissa_ofMantissaAndAccuracy, div_eq_iff hn'.ne'] at whole
    have none : m % n = 0 := by
      have : ((m % n : ℕ) : ℚ) = 0 := by linarith
      exact_mod_cast this
    rw [none]
    exact ⟨rfl, rfl⟩
  · rw [mantissa_ofMantissaAndAccuracy, div_lt_iff₀ hn', add_mul] at less
    have less : 2 * (m % n) < n := by
      have : 2 * ((m % n : ℕ) : ℚ) < n := by linarith
      exact_mod_cast this
    unfold accuracyOfFraction
    split
    · rfl
    · rw [Nat.compare_eq_lt.mpr less]
      rfl

/-- A quotient is rounded from the quotient of the mantissas, unless it is zero. -/
theorem exact_div_cases (hx : exact x = .finite p) (hy : exact y = .finite q) (h0 : q ≠ 0) :
    (p / q = 0 ∧ exact (x / y) = .finite 0) ∨
      ∃ (s : Sign) (m : ℕ) (e : ℤ) (a : Accuracy) (v : ℚ), e ≤ target m e ∧ 0 ≤ v ∧
        IsCut (.ofMantissaAndAccuracy m a) v ∧ p / q = signed s (v * 2 ^ e) ∧
        x / y = .ofModel (.pack (roundWithAccuracy .binary64 s m e a)) := by
  have quotient : x / y =
    .ofModel (.pack (UnpackedFloat.div .binary64 x.toModel.unpack y.toModel.unpack)) := rfl
  rw [quotient]
  rcases exact_cases hy with ⟨t, huy, rfl⟩ | ⟨t, n, f, hn, huy, hcy, rfl⟩
  · exact absurd rfl h0
  rw [huy]
  rcases exact_cases hx with ⟨s, hux, rfl⟩ | ⟨s, m, e, hm, hux, hcx, rfl⟩ <;> rw [hux]
  · exact .inl ⟨zero_div _, exact_pack_zero _⟩
  · have hle := quotientExponent_le (e := e) (f := f) hm hn
    simp only [UnpackedFloat.div, divCore_eq]
    generalize hE : quotientExponent m e n f = E at *
    obtain ⟨k, hk⟩ : ∃ k, k = (e - f - E).toNat := ⟨_, rfl⟩
    rw [← hk] at hle ⊢
    have hn' : (0 : ℚ) < n := Nat.cast_pos.mpr hn
    have hvalue : (m : ℚ) * 2 ^ e / (n * 2 ^ f) = (m <<< k : ℕ) / n * 2 ^ E := by
      have hexp : e = k + E + f := by
        have : E ≤ e - f := hE ▸ min_le_left _ _
        omega
      rw [hexp, Nat.shiftLeft_eq, zpow_add₀ (by norm_num), zpow_add₀ (by norm_num), zpow_natCast]
      push_cast
      field_simp
    refine .inr ⟨s / t, _, E, _, _, hle, by positivity, isCut_div (m <<< k) hn, ?_, rfl⟩
    rw [signed_div, hvalue]

/-- A quotient is off by one part in `2 ^ 52` and the least number at most. -/
theorem div_error (hx : exact x = .finite p) (hy : exact y = .finite q) (h0 : q ≠ 0)
    (h : |p / q| ≤ greatest) :
    ∃ r, exact (x / y) = .finite r ∧ |r - p / q| ≤ |p / q| / 2 ^ 52 + least := by
  rcases exact_div_cases hx hy h0 with
    ⟨hzero, hquotient⟩ | ⟨s, m, e, a, v, he, hv, cut, hvalue, hquotient⟩
  · refine ⟨0, hquotient, ?_⟩
    rw [hzero, sub_self, abs_zero, zero_div, zero_add]
    exact least_pos.le
  · rw [hvalue, abs_signed s (by positivity)] at h ⊢
    rw [hquotient]
    have hlo := cut.le
    have hhi := cut.lt.le
    rw [mantissa_ofMantissaAndAccuracy] at hlo hhi
    refine exact_round_error he ?_ ?_ h
    · gcongr
    · gcongr

end

/-! ## Whole numbers -/

theorem least_le_two_zpow {k : ℤ} (h : -1074 ≤ k) : least ≤ 2 ^ k := by
  unfold least
  exact zpow_le_zpow_right₀ (by norm_num) h

theorem two_pow_le_greatest {k : ℕ} (h : k ≤ 1022) : (2 : ℚ) ^ k ≤ greatest := by
  unfold greatest
  exact pow_le_pow_right₀ (by norm_num) h

theorem ofScientific_of_lt {n : ℕ} (h : n < 2 ^ 53) :
    Float.ofScientific n false 0 = n.toUInt64.toFloat * Float.ofBits 0x3FF0000000000000 := by
  unfold Float.ofScientific
  rw [dif_pos ⟨h, by decide⟩]
  rfl

theorem ofScientific_of_le {n : ℕ} (h : 2 ^ 53 ≤ n) :
    Float.ofScientific n false 0 =
      .ofModel (.pack (roundWithAccuracy .binary64 .positive (n <<< 53 * 1) (-53) .exact)) := by
  unfold Float.ofScientific
  rw [dif_neg (by omega)]
  show Float.ofModel (.pack (UnpackedFloat.ofScientific .binary64 n 0)) = _
  unfold UnpackedFloat.ofScientific
  rw [dif_neg (by omega), if_neg (by decide), if_neg (by simp), if_pos le_rfl]
  rfl

theorem exact_toFloat_error {n : ℕ} (h : n < 2 ^ 53) :
    ∃ r, exact n.toUInt64.toFloat = .finite r ∧ |r - n| ≤ n / 2 ^ 52 := by
  have hn : n.toUInt64.toNat = n := Nat.mod_eq_of_lt (h.trans (by decide))
  have hn' : (n : ℚ) ≤ 2 ^ 53 := by exact_mod_cast h.le
  show ∃ r, exact (.ofModel (.pack (UnpackedFloat.normalize .binary64 n.toUInt64.toNat 0 _))) =
    .finite r ∧ _
  rw [hn]
  have hvalue : ((n : ℤ) : ℚ) * 2 ^ (0 : ℤ) = n := by
    rw [zpow_zero, mul_one]
    rfl
  have herror : |((n : ℤ) : ℚ) * 2 ^ (0 : ℤ)| ≤ greatest := by
    rw [hvalue, Nat.abs_cast]
    exact hn'.trans (two_pow_le_greatest (by decide))
  obtain ⟨r, hr, hd⟩ := exact_normalize_error .positive (by decide) herror
  rw [hvalue, Nat.abs_cast] at hd
  exact ⟨r, hr, hd⟩

theorem exact_one : exact (Float.ofBits 0x3FF0000000000000) = .finite 1 := by decide

theorem ofScientific_error_of_lt {n : ℕ} (h : n < 2 ^ 53) :
    ∃ r, exact (Float.ofScientific n false 0) = .finite r ∧ |r - n| ≤ n * (3 / 2 ^ 52) + least := by
  rw [ofScientific_of_lt h]
  obtain ⟨r, hr, hd⟩ := exact_toFloat_error h
  have hn : (n : ℚ) ≤ 2 ^ 53 := by exact_mod_cast h.le
  have hn0 : (0 : ℚ) ≤ n := Nat.cast_nonneg n
  have hle : |r| ≤ n + n / 2 ^ 52 := by
    have := abs_sub_abs_le_abs_sub r n
    rw [Nat.abs_cast] at this
    linarith
  have hgreatest : |r * 1| ≤ greatest := by
    rw [mul_one]
    refine le_trans ?_ (two_pow_le_greatest (show 54 ≤ 1022 by decide))
    linarith
  obtain ⟨r', hr', hd'⟩ := mul_error hr exact_one hgreatest
  rw [mul_one] at hd'
  refine ⟨r', hr', ?_⟩
  have := abs_sub_le r' r n
  linarith

theorem ofScientific_error_of_le {n : ℕ} (h : 2 ^ 53 ≤ n) (hn : (n : ℚ) ≤ greatest) :
    ∃ r, exact (Float.ofScientific n false 0) = .finite r ∧ |r - n| ≤ n / 2 ^ 52 + least := by
  have hpos : n ≠ 0 := by omega
  have hvalue : ((n <<< 53 * 1 : ℕ) : ℚ) * 2 ^ (-53 : ℤ) = n := by
    rw [Nat.shiftLeft_eq]
    push_cast
    norm_num
    ring
  have htarget : (-53 : ℤ) ≤ target (n <<< 53 * 1) (-53) := by
    unfold target
    rw [mul_one, log2_shiftLeft hpos]
    omega
  rw [ofScientific_of_le h]
  refine exact_round_error htarget hvalue.le ?_ hn
  rw [add_mul, hvalue]
  exact le_add_of_nonneg_right (by positivity)

/-- A whole number is off by one part in `2 ^ 50` at most. -/
theorem ofInt_error {n : ℕ} (h : (n : ℚ) ≤ greatest) :
    ∃ r, exact (Scalar.ofInt n) = .finite r ∧ |r - n| ≤ n / 2 ^ 50 := by
  by_cases h0 : n = 0
  · subst h0
    exact ⟨0, exact_ofInt_zero, by simp⟩
  have hone : (1 : ℚ) ≤ n := by exact_mod_cast Nat.pos_of_ne_zero h0
  have hleast : least ≤ 1 / 2 ^ 52 := by
    refine (least_le_two_zpow (show -1074 ≤ -52 by decide)).trans_eq ?_
    norm_num
  obtain ⟨r, hr, hd⟩ : ∃ r, exact (Float.ofScientific n false 0) = .finite r ∧
      |r - n| ≤ n * (3 / 2 ^ 52) + least := by
    rcases Nat.lt_or_ge n (2 ^ 53) with hlt | hge
    · exact ofScientific_error_of_lt hlt
    · obtain ⟨r, hr, hd⟩ := ofScientific_error_of_le hge h
      exact ⟨r, hr, by linarith⟩
  exact ⟨r, hr, by linarith⟩

theorem exact_two : exact (Scalar.ofInt 2) = .finite 2 := by decide

/-! ## The tolerance -/

theorem exact_4096 : exact (Scalar.ofInt 4096) = .finite 4096 := by decide

section

variable {x y : Float} {p q : ℚ}

/-- The two sides of the comparison, the scaled distance and the sum of the magnitudes, are near the
exact ones. -/
theorem exists_almostEqual_iff (hx : exact x = .finite p) (hy : exact y = .finite q)
    (hbound : 8192 * (|p| + |q|) ≤ greatest) :
    ∃ l s, (almostEqual x y = true ↔ l ≤ s) ∧
      |l - |p - q| * 4096| ≤ |p - q| * 4096 / 2 ^ 50 + least ∧
      |s - (|p| + |q|)| ≤ (|p| + |q|) / 2 ^ 52 := by
  have hsum : 0 ≤ |p| + |q| := by positivity
  have hdiff : |p - q| ≤ |p| + |q| := abs_sub p q
  obtain ⟨d, hd, hderror⟩ := sub_error hx hy (by linarith)
  have hnear : |(|d| - |p - q|)| ≤ |p - q| / 2 ^ 52 := (abs_abs_sub_abs_le d (p - q)).trans hderror
  rw [abs_le] at hnear
  have hscaled : |(|d| * 4096)| = |d| * 4096 := abs_of_nonneg (by positivity)
  obtain ⟨l, hl, hlerror⟩ := mul_error (exact_abs hd) exact_4096 (by rw [hscaled]; linarith)
  obtain ⟨s, hs, hserror⟩ := add_error (exact_abs hx) (exact_abs hy)
    (by rw [abs_of_nonneg hsum]; linarith)
  rw [hscaled, abs_le] at hlerror
  rw [abs_of_nonneg hsum] at hserror
  refine ⟨l, s, ?_, ?_, hserror⟩
  · unfold almostEqual
    rw [decide_eq_true_iff, le_iff_of_exact hl hs]
  · rw [abs_le]
    constructor <;> linarith [abs_nonneg (p - q)]

/-- Numbers further apart than one part in 4000 are not equal up to tolerance. -/
theorem almostEqual_eq_false (hx : exact x = .finite p) (hy : exact y = .finite q)
    (hbound : 8192 * (|p| + |q|) ≤ greatest) (hmin : least ≤ |p - q|)
    (hfar : |p| + |q| ≤ 4000 * |p - q|) : almostEqual x y = false := by
  obtain ⟨l, s, hiff, hl, hs⟩ := exists_almostEqual_iff hx hy hbound
  rw [abs_le] at hl hs
  rw [← Bool.not_eq_true, hiff, not_le]
  linarith [least_pos]

end

end CueCheck.Binary64
