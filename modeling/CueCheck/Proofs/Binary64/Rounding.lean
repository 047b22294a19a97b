import CueCheck.Proofs.Binary64.Value

/-!
# Rounding to binary64 numbers

What the shifts of a rounding do to the value of a mantissa and an exponent.

- **The shift** (`target`, `rounded`): rounding shifts a mantissa to 53 bits, or to the lowest
  exponent, and is off by less than one unit in the last place (`rounded_error`).
- **Residual bits** (`IsCut`): two bits tell whether shifting has cut anything off.
- **No overflow** (`exact_pack_round`): the result of a rounding up to `greatest` is finite.
- **The error** (`exact_round_error`, `exact_normalize_error`): it is at most one part in `2 ^ 52`
  of the value, and `least` more where bits below the least number get lost.
-/

namespace CueCheck.Binary64

open Float.Model UnpackedFloat

/-- The least positive number. -/
@[irreducible] def least : ℚ := 2 ^ (-1074 : ℤ)

/-- A magnitude up to which rounding does not overflow. -/
@[irreducible] def greatest : ℚ := 2 ^ 1022

theorem least_pos : 0 < least := by
  unfold least
  positivity

/-! ## Shifting -/

/-- The exponent that rounding aims at: that of a mantissa of 53 bits, or the lowest one. -/
theorem targetExponent_eq (m : ℕ) (e : ℤ) :
    Format.binary64.targetExponent (totalExponent m e) = max (m.log2 + e - 52) (-1074) := by
  have hbits : Format.binary64.mantissaBits = 53 := rfl
  have hmin : Format.binary64.minExponent = -1074 := rfl
  unfold Format.targetExponent totalExponent
  rw [hbits, hmin]
  omega

theorem mantissa_shiftRight (em : ExtendedMantissa) (k : ℕ) :
    (em >>> k).mantissa = em.mantissa / 2 ^ k := by
  induction k with
  | zero => exact (Nat.div_one _).symm
  | succ k ih =>
    show (em >>> k).mantissa / 2 = _
    rw [ih, Nat.div_div_eq_div_mul, pow_succ]

theorem mantissa_ofMantissaAndAccuracy (m : ℕ) (a : Accuracy) :
    (ExtendedMantissa.ofMantissaAndAccuracy m a).mantissa = m := by
  cases a with
  | exact => rfl
  | inexact o => cases o <;> rfl

theorem roundedMantissa_bounds (em : ExtendedMantissa) :
    em.mantissa ≤ em.roundedMantissa ∧ em.roundedMantissa ≤ em.mantissa + 1 := by
  obtain ⟨m, round, sticky⟩ := em
  cases round <;> cases sticky <;>
    simp only [ExtendedMantissa.roundedMantissa, ExtendedMantissa.accuracy,
      Accuracy.roundToNearestEven] <;> omega

/-! ### Residual bits -/

/-- The mantissa is what is left of a number without its fraction. Both residual bits are clear
where nothing was cut off, and the first of them where less than a half was. -/
structure IsCut (em : ExtendedMantissa) (v : ℚ) : Prop where
  le : em.mantissa ≤ v
  lt : v < em.mantissa + 1
  clear : v = em.mantissa → em.roundBit = false ∧ em.stickyBit = false
  less : v < em.mantissa + 1 / 2 → em.roundBit = false

section Cut

variable {em : ExtendedMantissa} {v : ℚ}

theorem isCut_exact (m : ℕ) : IsCut (.ofMantissaAndAccuracy m .exact) m :=
  ⟨le_rfl, lt_add_one _, fun _ => ⟨rfl, rfl⟩, fun _ => rfl⟩

theorem IsCut.shiftRightOne (h : IsCut em v) : IsCut em.shiftRightOne (v / 2) := by
  obtain ⟨m, round, sticky⟩ := em
  obtain ⟨le, lt, clear, -⟩ := h
  have halves : 2 * ((m / 2 : ℕ) : ℚ) + (m % 2 : ℕ) = m := by exact_mod_cast Nat.div_add_mod m 2
  -- The new residual bit is the last bit of the mantissa.
  have bit {u : ℚ} (hu : u < ((m / 2 : ℕ) : ℚ) + 1 / 2) (hm : m ≤ 2 * u) : m % 2 = 0 := by
    have : ((m % 2 : ℕ) : ℚ) < 1 := by linarith
    have : m % 2 < 1 := by exact_mod_cast this
    omega
  have atMost : ((m % 2 : ℕ) : ℚ) ≤ 1 := by exact_mod_cast Nat.le_of_lt_succ (Nat.mod_lt m two_pos)
  have atLeast : (0 : ℚ) ≤ (m % 2 : ℕ) := Nat.cast_nonneg _
  simp only at le lt clear
  refine ⟨?_, ?_, fun same => ?_, fun less => ?_⟩
  · show ((m / 2 : ℕ) : ℚ) ≤ v / 2
    linarith
  · show v / 2 < ((m / 2 : ℕ) : ℚ) + 1
    linarith
  · have same : v / 2 = ((m / 2 : ℕ) : ℚ) := same
    have even := bit (u := v / 2) (by linarith) (by linarith)
    obtain ⟨rfl, rfl⟩ := clear (by rw [even, Nat.cast_zero] at halves; linarith)
    exact ⟨by simp [ExtendedMantissa.shiftRightOne, even], rfl⟩
  · have even := bit (u := v / 2) less (by linarith)
    simp [ExtendedMantissa.shiftRightOne, even]

theorem IsCut.shiftRight (h : IsCut em v) (k : ℕ) : IsCut (em >>> k) (v / 2 ^ k) := by
  induction k with
  | zero => rwa [pow_zero, div_one]
  | succ k ih =>
    rw [pow_succ, ← div_div]
    exact ih.shiftRightOne

/-- Rounding stays on the same side of every whole number. -/
theorem IsCut.rounded (h : IsCut em v) (n : ℤ) :
    ((n : ℚ) ≤ v → n ≤ em.roundedMantissa) ∧ (v ≤ n → (em.roundedMantissa : ℤ) ≤ n) := by
  obtain ⟨le, lt, clear, -⟩ := h
  obtain ⟨below, above⟩ := roundedMantissa_bounds em
  constructor
  · intro hn
    have : (n : ℚ) < (em.mantissa + 1 : ℕ) := by
      push_cast
      linarith
    have : n < (em.mantissa + 1 : ℕ) := by exact_mod_cast this
    omega
  · intro hn
    have reached : (em.mantissa : ℤ) ≤ n := by exact_mod_cast le.trans hn
    rcases reached.lt_or_eq with past | whole
    · omega
    · have same : v = em.mantissa := by
        refine le_antisymm (hn.trans_eq ?_) le
        exact_mod_cast whole.symm
      obtain ⟨round, sticky⟩ := clear same
      obtain ⟨m, _, _⟩ := em
      obtain rfl := round
      obtain rfl := sticky
      exact whole.le

/-- Less than a half is rounded off. -/
theorem IsCut.rounded_of_less (h : IsCut em v) (less : v < em.mantissa + 1 / 2) :
    em.roundedMantissa = em.mantissa := by
  have round := h.less less
  obtain ⟨m, _, sticky⟩ := em
  obtain rfl := round
  cases sticky <;> rfl

end Cut

/-! ### The exponent aimed at -/

/-- The exponent that rounding aims at. -/
def target (m : ℕ) (e : ℤ) : ℤ :=
  max (m.log2 + e - 52) (-1074)

theorem shift_eq (m : ℕ) (e : ℤ) (a : Accuracy) :
    shiftToTargetExponent .binary64 m e a =
      (ExtendedMantissa.ofMantissaAndAccuracy m a >>> (target m e - e).toNat,
        e + (target m e - e).toNat) := by
  unfold shiftToTargetExponent
  rw [targetExponent_eq]
  rfl

/-- A mantissa of at most 53 bits stays as it is. -/
theorem shift_of_lt {m : ℕ} {e : ℤ} (hm : m < 2 ^ 53) (he : -1074 ≤ e) :
    shiftToTargetExponent .binary64 m e .exact = (⟨m, false, false⟩, e) := by
  have hlog : m.log2 ≤ 52 := by
    by_cases h0 : m = 0
    · rw [h0]
      decide
    · have := (Nat.log2_lt h0).mpr hm
      omega
  rw [shift_eq, show (target m e - e).toNat = 0 by unfold target; omega, Nat.cast_zero, add_zero]
  rfl

/-- A mantissa that rounding has carried to 54 bits loses its last one. -/
theorem shift_of_eq {e : ℤ} (he : -1074 ≤ e) :
    shiftToTargetExponent .binary64 (2 ^ 53) e .exact = (⟨2 ^ 52, false, false⟩, e + 1) := by
  have hone : (target (2 ^ 53) e - e).toNat = 1 := by
    unfold target
    rw [Nat.log2_two_pow]
    omega
  rw [shift_eq, hone]
  rfl

section Round

variable {s : Sign} {m : ℕ} {e : ℤ} {a : Accuracy}

theorem shifted_lt (m : ℕ) (e : ℤ) : m / 2 ^ (target m e - e).toNat < 2 ^ 53 := by
  rw [Nat.div_lt_iff_lt_mul (by positivity), ← pow_add]
  calc m < 2 ^ (m.log2 + 1) := Nat.lt_log2_self
    _ ≤ _ := Nat.pow_le_pow_right (by decide) (by unfold target; omega)

theorem le_shifted (he : e ≤ target m e) (ht : target m e ≠ -1074) :
    2 ^ 52 ≤ m / 2 ^ (target m e - e).toNat := by
  have hlog : 52 ≤ m.log2 := by unfold target at *; omega
  have hm : m ≠ 0 := by
    rintro rfl
    exact absurd hlog (by decide)
  rw [Nat.le_div_iff_mul_le (by positivity), ← pow_add]
  calc 2 ^ (52 + (target m e - e).toNat) = 2 ^ m.log2 := by unfold target at *; congr 1; omega
    _ ≤ m := Nat.log2_self_le hm

/-- The mantissa that rounding arrives at before a carry. -/
def rounded (m : ℕ) (e : ℤ) (a : Accuracy) : ℕ :=
  (shiftToTargetExponent .binary64 m e a).1.roundedMantissa

/-- The mantissa before it is rounded. -/
def shifted (m : ℕ) (e : ℤ) (a : Accuracy) : ExtendedMantissa :=
  ExtendedMantissa.ofMantissaAndAccuracy m a >>> (target m e - e).toNat

theorem rounded_eq (m : ℕ) (e : ℤ) (a : Accuracy) :
    rounded m e a = (shifted m e a).roundedMantissa := by
  rw [rounded, shift_eq, shifted]

theorem mantissa_shifted (m : ℕ) (e : ℤ) (a : Accuracy) :
    (shifted m e a).mantissa = m / 2 ^ (target m e - e).toNat := by
  rw [shifted, mantissa_shiftRight, mantissa_ofMantissaAndAccuracy]

/-- Shifted, the mantissa counts units in the last place. -/
theorem isCut_shifted {v : ℚ} (he : e ≤ target m e) (cut : IsCut (.ofMantissaAndAccuracy m a) v) :
    IsCut (shifted m e a) (v * 2 ^ e / 2 ^ target m e) := by
  obtain ⟨k, hk⟩ : ∃ k : ℕ, target m e = e + k := ⟨(target m e - e).toNat, by omega⟩
  have hscale : v * 2 ^ e / 2 ^ target m e = v / 2 ^ k := by
    rw [hk, zpow_add₀ two_ne_zero, zpow_natCast]
    field_simp
  rw [hscale, shifted, hk, add_sub_cancel_left, Int.toNat_natCast]
  exact cut.shiftRight k

theorem rounded_bounds (m : ℕ) (e : ℤ) (a : Accuracy) :
    m / 2 ^ (target m e - e).toNat ≤ rounded m e a ∧
      rounded m e a ≤ m / 2 ^ (target m e - e).toNat + 1 := by
  rw [rounded_eq, ← mantissa_shifted m e a]
  exact roundedMantissa_bounds _

/-- Where there is nothing to shift, an exact mantissa is not rounded. -/
theorem rounded_of_target_eq (h : target m e = e) : rounded m e .exact = m := by
  unfold rounded
  rw [shift_eq, h, sub_self]
  rfl

/-- The number of a mantissa and an exponent that rounding has arrived at. -/
def finish (s : Sign) (result : ExtendedMantissa × ℤ) : UnpackedFloat :=
  if h : result.1.mantissa = 0 then .zero s
  else .finite s result.1.mantissa result.2 (Nat.pos_of_ne_zero h)

theorem roundWithAccuracy_eq (he : e ≤ target m e) :
    roundWithAccuracy .binary64 s m e a =
      finish s (shiftToTargetExponent .binary64 (rounded m e a) (target m e) .exact) := by
  have hexp : (shiftToTargetExponent .binary64 m e a).2 = target m e := by
    rw [shift_eq]
    simp only
    omega
  rw [← hexp]
  rfl

theorem exact_pack_finish {round sticky : Bool} (h : m = 0 ∨ IsCanonical m e) :
    exact (.ofModel (.pack (finish s (⟨m, round, sticky⟩, e)))) = .finite (s.apply m * 2 ^ e) := by
  rw [exact_eq_finite_iff]
  show value? (Float.Model.pack (finish s _)).unpack = _
  unfold finish
  by_cases h0 : m = 0
  · subst h0
    simp only [↓reduceDIte, SameNumber.unpack_pack_zero]
    cases s <;> simp [value?, Sign.apply]
  · rw [dif_neg h0, unpack_pack _ (h.resolve_left h0)]
    rfl

/-- What rounding and packing arrive at, as long as the mantissa keeps to 53 bits. -/
theorem exact_pack_round_of_lt (he : e ≤ target m e) (ht : target m e ≤ 971)
    (hr : rounded m e a < 2 ^ 53) :
    exact (.ofModel (.pack (roundWithAccuracy .binary64 s m e a))) =
      .finite (s.apply (rounded m e a) * 2 ^ target m e) := by
  have hlow : -1074 ≤ target m e := le_max_right _ _
  rw [roundWithAccuracy_eq he, shift_of_lt hr hlow]
  refine exact_pack_finish (.inr ⟨hr, hlow, ht, ?_⟩)
  by_cases hmin : target m e = -1074
  · exact .inr hmin
  · exact .inl ((le_shifted he hmin).trans (rounded_bounds m e a).1)

/-- What rounding and packing arrive at, as long as nothing overflows. -/
theorem exact_pack_round (he : e ≤ target m e) (ht : target m e ≤ 970) :
    exact (.ofModel (.pack (roundWithAccuracy .binary64 s m e a))) =
      .finite (s.apply (rounded m e a) * 2 ^ target m e) := by
  have hlow : -1074 ≤ target m e := le_max_right _ _
  have hbound : rounded m e a ≤ 2 ^ 53 := (rounded_bounds m e a).2.trans (shifted_lt m e)
  rcases hbound.lt_or_eq with hlt | heq
  · exact exact_pack_round_of_lt he (by omega) hlt
  · have hcanonical : IsCanonical (2 ^ 52) (target m e + 1) :=
      ⟨by decide, by omega, by omega, .inl le_rfl⟩
    rw [roundWithAccuracy_eq he, heq, shift_of_eq hlow, exact_pack_finish (.inr hcanonical)]
    congr 1
    rw [zpow_add_one₀ (by norm_num)]
    cases s <;> simp only [Sign.apply] <;> push_cast <;> ring

/-! ### The error -/

variable {v : ℚ}

/-- The value of a mantissa lies between the cut mantissa and the next one. -/
theorem cut_bounds (he : e ≤ target m e) :
    ((m / 2 ^ (target m e - e).toNat : ℕ) : ℚ) * 2 ^ target m e ≤ m * 2 ^ e ∧
      ((m : ℚ) + 1) * 2 ^ e ≤ ((m / 2 ^ (target m e - e).toNat : ℕ) + 1) * 2 ^ target m e := by
  set k := (target m e - e).toNat with hk
  have hscale : (2 : ℚ) ^ target m e = 2 ^ k * 2 ^ e := by
    rw [← zpow_natCast, ← zpow_add₀ (by norm_num)]
    congr 1
    omega
  have hpos : (0 : ℚ) < 2 ^ e := by positivity
  have hcut : ((m / 2 ^ k : ℕ) : ℚ) * 2 ^ k ≤ m := by
    exact_mod_cast Nat.div_mul_le_self m (2 ^ k)
  have hnext : (m : ℚ) + 1 ≤ ((m / 2 ^ k : ℕ) + 1) * 2 ^ k := by
    exact_mod_cast Nat.lt_mul_of_div_lt (Nat.lt_succ_self _) (by positivity)
  rw [hscale, ← mul_assoc, ← mul_assoc]
  exact ⟨mul_le_mul_of_nonneg_right hcut hpos.le, mul_le_mul_of_nonneg_right hnext hpos.le⟩

/-- Rounding is off by one unit in the last place at most. -/
theorem rounded_error (he : e ≤ target m e) (hlo : m * 2 ^ e ≤ v) (hhi : v ≤ (m + 1) * 2 ^ e) :
    |rounded m e a * 2 ^ target m e - v| ≤ 2 ^ target m e := by
  obtain ⟨hle, hge⟩ := rounded_bounds m e a
  obtain ⟨hcut, hnext⟩ := cut_bounds he
  set k := (target m e - e).toNat
  have hle' : ((m / 2 ^ k : ℕ) : ℚ) ≤ rounded m e a := by exact_mod_cast hle
  have hge' : (rounded m e a : ℚ) ≤ (m / 2 ^ k : ℕ) + 1 := by exact_mod_cast hge
  have htarget : (0 : ℚ) < 2 ^ target m e := by positivity
  have h1 := mul_le_mul_of_nonneg_right hle' htarget.le
  have h2 := mul_le_mul_of_nonneg_right hge' htarget.le
  rw [abs_le]
  constructor <;> linarith

theorem two_zpow_log2_le (hm : m ≠ 0) (hlo : m * 2 ^ e ≤ v) : (2 : ℚ) ^ (m.log2 + e) ≤ v := by
  have hlog : ((2 ^ m.log2 : ℕ) : ℚ) ≤ m := Nat.cast_le.mpr (Nat.log2_self_le hm)
  push_cast at hlog
  calc (2 : ℚ) ^ (m.log2 + e) = 2 ^ m.log2 * 2 ^ e := by
        rw [zpow_add₀ (by norm_num), zpow_natCast]
    _ ≤ m * 2 ^ e := by gcongr
    _ ≤ v := hlo

/-- Zero has no logarithm that would raise the exponent. -/
theorem ne_zero_of_target_ne (he : e ≤ target m e) (ht : target m e ≠ -1074) : m ≠ 0 := by
  rintro rfl
  unfold target at *
  simp at *
  omega

/-- A unit in the last place is a small part of the value, unless the exponent is the lowest. -/
theorem two_zpow_target_le (he : e ≤ target m e) (hlo : m * 2 ^ e ≤ v)
    (ht : target m e ≠ -1074) : (2 : ℚ) ^ target m e ≤ v / 2 ^ 52 := by
  have hm := ne_zero_of_target_ne he ht
  have htarget : target m e = m.log2 + e - (52 : ℕ) := by unfold target at *; omega
  rw [htarget, zpow_sub₀ (by norm_num), zpow_natCast]
  have := two_zpow_log2_le hm hlo
  gcongr

theorem target_le (he : e ≤ target m e) (hlo : m * 2 ^ e ≤ v) (hv : v ≤ greatest) :
    target m e ≤ 970 := by
  by_contra hgt
  have hm := ne_zero_of_target_ne he (by omega)
  have h := (two_zpow_log2_le hm hlo).trans hv
  unfold greatest at h
  rw [← zpow_natCast (2 : ℚ) 1022, zpow_le_zpow_iff_right₀ (by norm_num)] at h
  unfold target at *
  omega

end Round

/-! ## The error of an operation -/

/-- The number of a sign and a magnitude. -/
def signed : Sign → ℚ → ℚ
  | .negative, v => -v
  | .positive, v => v

theorem apply_mul (s : Sign) (m : ℕ) (c : ℚ) : (s.apply m : ℚ) * c = signed s (m * c) := by
  cases s
  · show ((-(m : ℤ) : ℤ) : ℚ) * c = -(m * c)
    push_cast
    ring
  · rfl

theorem abs_signed_sub (s : Sign) (v w : ℚ) : |signed s v - signed s w| = |v - w| := by
  cases s
  · show |-v - -w| = _
    rw [neg_sub_neg, abs_sub_comm]
  · rfl

/-- Rounding and packing a magnitude between two consecutive mantissas. -/
theorem exact_round_error {s : Sign} {m : ℕ} {e : ℤ} {a : Accuracy} {v : ℚ} (he : e ≤ target m e)
    (hlo : m * 2 ^ e ≤ v) (hhi : v ≤ (m + 1) * 2 ^ e) (hv : v ≤ greatest) :
    ∃ r, exact (.ofModel (.pack (roundWithAccuracy .binary64 s m e a))) = .finite r ∧
      |r - signed s v| ≤ v / 2 ^ 52 + least := by
  refine ⟨_, exact_pack_round he (target_le he hlo hv), ?_⟩
  rw [apply_mul, abs_signed_sub]
  have hv0 : 0 ≤ v := le_trans (by positivity) hlo
  have herror : |rounded m e a * 2 ^ target m e - v| ≤ 2 ^ target m e := rounded_error he hlo hhi
  by_cases ht : target m e = -1074
  · have hleast : (2 : ℚ) ^ target m e = least := by rw [ht, least]
    calc _ ≤ least := hleast ▸ herror
      _ ≤ v / 2 ^ 52 + least := le_add_of_nonneg_left (by positivity)
  · calc _ ≤ v / 2 ^ 52 := herror.trans (two_zpow_target_le he hlo ht)
      _ ≤ v / 2 ^ 52 + least := le_add_of_nonneg_right least_pos.le

theorem log2_shiftLeft {m : ℕ} (hm : m ≠ 0) (k : ℕ) : (m <<< k).log2 = m.log2 + k := by
  have hpos : m <<< k ≠ 0 := (Nat.shiftLeft_pos_iff.mpr (Nat.pos_of_ne_zero hm)).ne'
  rw [Nat.log2_eq_iff hpos, Nat.shiftLeft_eq, pow_add, Nat.add_right_comm, pow_add]
  exact ⟨Nat.mul_le_mul_right _ (Nat.log2_self_le hm),
    Nat.mul_lt_mul_of_pos_right Nat.lt_log2_self (by positivity)⟩

/-- Before rounding, the exponent is lowered to the one aimed at. -/
theorem exists_round_eq (s : Sign) {m : ℕ} (hm : m ≠ 0) (e : ℤ) :
    ∃ n, UnpackedFloat.round .binary64 s m e =
        roundWithAccuracy .binary64 s n (min e (target m e)) .exact ∧
      target n (min e (target m e)) = target m e ∧
      (n : ℚ) * 2 ^ min e (target m e) = m * 2 ^ e := by
  obtain ⟨k, hk⟩ : ∃ k, k = (e - target m e).toNat := ⟨_, rfl⟩
  obtain hmin : min e (target m e) = e - k := by omega
  rw [hmin]
  refine ⟨m <<< k, ?_, ?_, ?_⟩
  · unfold UnpackedFloat.round decreaseExponent
    rw [targetExponent_eq, ← target, hk]
  · unfold target
    rw [log2_shiftLeft hm]
    omega
  · rw [Nat.shiftLeft_eq, zpow_sub₀ (by norm_num), zpow_natCast]
    push_cast
    field_simp

/-- Rounding and packing a multiple of the least number: no bits are lost below it. -/
theorem exact_round_error_of_le {s : Sign} {m : ℕ} {e : ℤ} (hm : m ≠ 0) (he : -1074 ≤ e)
    (hv : m * (2 : ℚ) ^ e ≤ greatest) :
    ∃ r, exact (.ofModel (.pack (UnpackedFloat.round .binary64 s m e))) = .finite r ∧
      |r - signed s (m * 2 ^ e)| ≤ m * 2 ^ e / 2 ^ 52 := by
  obtain ⟨n, hround, htarget, hvalue⟩ := exists_round_eq s hm e
  have hle : min e (target m e) ≤ target n (min e (target m e)) := by omega
  rw [hround]
  refine ⟨_, exact_pack_round hle (target_le hle hvalue.le hv), ?_⟩
  rw [apply_mul, abs_signed_sub]
  by_cases ht : target n (min e (target m e)) = min e (target m e)
  · rw [rounded_of_target_eq ht, ht, hvalue, sub_self, abs_zero]
    positivity
  · refine (rounded_error hle hvalue.le ?_).trans (two_zpow_target_le hle hvalue.le (by omega))
    rw [← hvalue]
    gcongr
    linarith

/-- What is less than the largest number does not overflow when it is rounded. -/
theorem exists_exact_round {s : Sign} {m : ℕ} {e : ℤ} (hm : m ≠ 0)
    (hv : m * (2 : ℚ) ^ e < (2 ^ 53 - 1) * 2 ^ (971 : ℤ)) :
    ∃ r, exact (.ofModel (.pack (UnpackedFloat.round .binary64 s m e))) = .finite r := by
  obtain ⟨n, hround, htarget, hvalue⟩ := exists_round_eq s hm e
  have hle : min e (target m e) ≤ target n (min e (target m e)) := by omega
  generalize min e (target m e) = f at hround hvalue hle
  rw [hround]
  rw [← hvalue] at hv
  have hn : n ≠ 0 := by
    rintro rfl
    have hpos : (0 : ℚ) < m * 2 ^ e :=
      mul_pos (Nat.cast_pos.mpr (Nat.pos_of_ne_zero hm)) (by positivity)
    simp [← hvalue] at hpos
  have hlog : n.log2 + f < 53 + 971 := by
    refine (zpow_lt_zpow_iff_right₀ (one_lt_two (α := ℚ))).mp ?_
    rw [zpow_add₀ two_ne_zero 53]
    calc (2 : ℚ) ^ (n.log2 + f) ≤ n * 2 ^ f := two_zpow_log2_le hn le_rfl
      _ < (2 ^ 53 - 1) * 2 ^ (971 : ℤ) := hv
      _ ≤ 2 ^ (53 : ℤ) * 2 ^ (971 : ℤ) := by gcongr; norm_num
  by_cases ht : target n f ≤ 970
  · exact ⟨_, exact_pack_round hle ht⟩
  · -- At the highest exponent the mantissa is cut below the greatest one, so it may be rounded up.
    have ht : target n f = 971 := by unfold target at *; omega
    have hcut : n / 2 ^ (target n f - f).toNat < 2 ^ 53 - 1 := by
      have h := (cut_bounds hle).1.trans_lt hv
      rw [← ht] at h
      have h := lt_of_mul_lt_mul_right h (by positivity)
      rw [← Nat.cast_lt (α := ℚ)]
      norm_num at h ⊢
      exact h
    exact ⟨_, exact_pack_round_of_lt hle ht.le
      ((rounded_bounds n f .exact).2.trans_lt (by omega))⟩

/-- Rounding and packing an integer multiple of the least number or more. -/
theorem exact_normalize_error {m e : ℤ} (zero : Sign) (he : -1074 ≤ e)
    (hv : |(m : ℚ) * 2 ^ e| ≤ greatest) :
    ∃ r, exact (.ofModel (.pack (UnpackedFloat.normalize .binary64 m e zero))) = .finite r ∧
      |r - m * 2 ^ e| ≤ |(m : ℚ) * 2 ^ e| / 2 ^ 52 := by
  unfold UnpackedFloat.normalize
  rcases lt_trichotomy m 0 with hm | rfl | hm
  · obtain ⟨n, hn⟩ := Int.eq_ofNat_of_zero_le (show 0 ≤ -m by omega)
    obtain rfl : m = -n := by omega
    rw [Int.compare_eq_lt.mpr hm]
    simp only [neg_neg, Int.toNat_natCast]
    rw [Int.cast_neg, Int.cast_natCast, neg_mul, abs_neg, abs_of_nonneg (by positivity)] at hv ⊢
    exact exact_round_error_of_le (by omega) he hv
  · refine ⟨0, ?_, by simp⟩
    rw [exact_eq_finite_iff]
    show value? (Float.Model.pack (.zero zero)).unpack = _
    rw [SameNumber.unpack_pack_zero]
    rfl
  · obtain ⟨n, rfl⟩ := Int.eq_ofNat_of_zero_le hm.le
    rw [Int.compare_eq_gt.mpr hm]
    simp only [Int.toNat_natCast]
    rw [Int.cast_natCast, abs_of_nonneg (by positivity)] at hv ⊢
    exact exact_round_error_of_le (by omega) he hv

end CueCheck.Binary64
