import CueCheck.Proofs.Binary64
import Mathlib

/-!
# The values of finite binary64 numbers

A finite number is a sign, a mantissa and an exponent, and stands for a rational.

- **Values** (`value?`, `exact_eq_finite_iff`): the exact reading of a number, as a power of two
  times an integer.
- **Canonical form** (`IsCanonical`): the mantissa and the exponent of a number are determined by
  its value. Unpacked numbers have this form (`isCanonical_of_unpack`), and packing numbers that
  have it loses nothing (`unpack_pack`).
- **Order** (`less_of_exact`, `le_iff_of_exact`): finite numbers are ordered as their values are.
- **How many there are** (`length_le_of_nodup`): as many at most as patterns of 64 bits.
-/

namespace CueCheck.Binary64

open Float.Model UnpackedFloat

/-! ## Values -/

/-- The number that an unpacked number stands for, if it stands for a finite one. -/
def value? : UnpackedFloat → Option ℚ
  | .zero _ => some 0
  | .finite s m e _ => some (s.apply m * 2 ^ e)
  | _ => none

theorem ratOfDyadic_eq (m e : ℤ) : ratOfDyadic m e = m * 2 ^ e := by
  unfold ratOfDyadic
  split
  · rename_i h
    obtain ⟨n, rfl⟩ := Int.eq_ofNat_of_zero_le h
    rw [Int.toNat_natCast, zpow_natCast, Nat.pow_eq]
    push_cast
    rfl
  · rename_i h
    obtain ⟨n, hn⟩ := Int.eq_ofNat_of_zero_le (show 0 ≤ -e by omega)
    obtain rfl : e = -n := by omega
    rw [neg_neg, Int.toNat_natCast, Rat.mkRat_eq_div, zpow_neg, zpow_natCast, Nat.pow_eq,
      div_eq_mul_inv]
    push_cast
    rfl

theorem exact_eq_finite_iff {x : Float} {q : ℚ} :
    exact x = .finite q ↔ value? x.toModel.unpack = some q := by
  unfold exact dyadic? value?
  cases x.toModel.unpack with
  | notANumber => simp
  | infinity s => cases s <;> simp
  | zero s => simp [ratOfDyadic_eq]
  | finite s m e hm => cases s <;> simp [ratOfDyadic_eq, Sign.apply]

/-! ## Canonical form -/

/-- The mantissa and the exponent of a finite binary64 number: either the mantissa takes all 53 bits
or the exponent is the lowest one. -/
structure IsCanonical (m : ℕ) (e : ℤ) : Prop where
  lt : m < 2 ^ 53
  ge : -1074 ≤ e
  le : e ≤ 971
  normal : 2 ^ 52 ≤ m ∨ e = -1074

theorem toNat_append_one (m : BitVec 52) : (1#1 ++ m).toNat = 2 ^ 52 + m.toNat := by
  rw [BitVec.toNat_append, ← Nat.shiftLeft_add_eq_or_of_lt m.isLt]
  rfl

theorem isCanonical_of_unpack {x : Float} {s : Sign} {m : ℕ} {e : ℤ} {hm : 0 < m}
    (h : x.toModel.unpack = .finite s m e hm) : IsCanonical m e := by
  unfold Float.Model.unpack UnpackedFloat.unpack at h
  simp only at h
  set exponent : BitVec 11 := @unpackExponent .binary64 x.toModel.toBits.toBitVec
  set mantissa : BitVec 52 := @unpackMantissa .binary64 x.toModel.toBits.toBitVec
  have hmantissa : mantissa.toNat < 2 ^ 52 := mantissa.isLt
  have hexponent : exponent.toNat < 2 ^ 11 := exponent.isLt
  have hbias : Format.binary64.exponentBias = 1023 := rfl
  split at h
  · split at h <;> cases h
  · rename_i hinf
    split at h
    · rename_i hzero
      split at h
      · cases h
      · cases h
        rw [hzero, hbias]
        exact ⟨by omega, by decide, by decide, .inr (by decide)⟩
    · rename_i hpos
      cases h
      have hlow : exponent.toNat ≠ 0 := fun h => hpos (BitVec.eq_of_toNat_eq h)
      have hhigh : exponent.toNat ≠ 2047 := fun h => hinf (BitVec.eq_of_toNat_eq h)
      rw [toNat_append_one, hbias]
      refine ⟨by omega, ?_, ?_, .inl (by omega)⟩ <;> push_cast <;> omega

/-- Packing a number in canonical form loses nothing. -/
theorem unpack_pack {s : Sign} {m : ℕ} {e : ℤ} (hm : 0 < m) (h : IsCanonical m e) :
    (Float.Model.pack (.finite s m e hm)).unpack = .finite s m e hm := by
  obtain ⟨hlt, hge, hle, hn⟩ := h
  have hbias : Format.binary64.exponentBias = 1023 := rfl
  have hbits : Format.binary64.mantissaBits = 53 := rfl
  obtain ⟨b, hb⟩ : ∃ b : ℕ, (b : ℤ) = e + (1023 : ℕ) + (52 : ℕ) :=
    ⟨_, Int.toNat_of_nonneg (by omega)⟩
  have hfield : (BitVec.ofNat 11 b).toNat = b := by
    rw [BitVec.toNat_ofNat, Nat.mod_eq_of_lt (by omega)]
  have hinf : BitVec.ofNat 11 b ≠ -1#11 := by
    intro h
    have := congrArg BitVec.toNat h
    rw [hfield, show (-1#11).toNat = 2047 from rfl] at this
    omega
  have hzero : BitVec.ofNat 11 b ≠ 0#11 := by
    intro h
    have := congrArg BitVec.toNat h
    rw [hfield, BitVec.toNat_zero] at this
    omega
  unfold Float.Model.unpack Float.Model.pack UnpackedFloat.pack
  simp only [hbias, hbits, ← hb, Int.toNat_natCast]
  rw [if_neg (by omega)]
  by_cases hbig : 2 ^ 52 ≤ m
  · have hlog : m.log2 + 1 = 53 := by
      rw [(Nat.log2_eq_iff hm.ne').mpr ⟨hbig, hlt⟩]
    have hmantissa : (1#1 ++ BitVec.ofNat 52 m).toNat = m := by
      rw [toNat_append_one, BitVec.toNat_ofNat]
      omega
    rw [if_pos hlog]
    unfold UnpackedFloat.unpack
    simp only [unpackMantissa_packComponents, unpackExponent_packComponents,
      unpackSign_packComponents, hinf, hzero, if_false, hbias, hfield, hmantissa,
      Sign.ofBitVec_toBitVec, show (b : ℤ) - ((1023 : ℕ) + (52 : ℕ)) = e by omega]
  · have hlow : e = -1074 := hn.resolve_left hbig
    have hlog : m.log2 + 1 ≠ 53 := by
      have := (Nat.log2_lt hm.ne').mpr (Nat.not_le.mp hbig)
      omega
    have hmantissa : (BitVec.ofNat 52 m).toNat = m := by
      rw [BitVec.toNat_ofNat]
      omega
    have hne : BitVec.ofNat 52 m ≠ 0#52 := by
      intro h
      have := congrArg BitVec.toNat h
      rw [hmantissa, BitVec.toNat_zero] at this
      omega
    rw [if_neg hlog]
    unfold UnpackedFloat.unpack
    simp only [unpackMantissa_packComponents, unpackExponent_packComponents,
      unpackSign_packComponents, hne, hbias, hmantissa, Sign.ofBitVec_toBitVec, hlow]
    rfl

/-! ## The order of values -/

section Order

variable {m n : ℕ} {e f : ℤ}

/-- A mantissa below `2 ^ 53` does not reach a full one at the next exponent. -/
theorem dyadic_lt_of_exponent_lt (h : IsCanonical m e) (h' : IsCanonical n f) (hlt : e < f) :
    (m : ℚ) * 2 ^ e < n * 2 ^ f := by
  have hn : 2 ^ 52 ≤ n := h'.normal.resolve_right fun hf => by have := h.ge; omega
  have hm' : (m : ℚ) < 2 ^ 53 := by exact_mod_cast h.lt
  have hn' : (2 : ℚ) ^ 52 ≤ n := by exact_mod_cast hn
  calc (m : ℚ) * 2 ^ e < 2 ^ 53 * 2 ^ e := by gcongr
    _ = 2 ^ 52 * 2 ^ (e + 1) := by rw [zpow_add_one₀ (by norm_num)]; ring
    _ ≤ 2 ^ 52 * 2 ^ f := by gcongr <;> [norm_num; omega]
    _ ≤ n * 2 ^ f := by gcongr

theorem dyadic_lt (h : IsCanonical m e) (h' : IsCanonical n f) (hlt : e < f ∨ e = f ∧ m < n) :
    (m : ℚ) * 2 ^ e < n * 2 ^ f := by
  rcases hlt with hlt | ⟨rfl, hlt⟩
  · exact dyadic_lt_of_exponent_lt h h' hlt
  · gcongr

end Order

/-- Zero, or a finite number in canonical form. -/
def IsValue : UnpackedFloat → Prop
  | .zero _ => True
  | .finite _ m e _ => IsCanonical m e
  | _ => False

theorem isValue_of_exact {x : Float} {q : ℚ} (h : exact x = .finite q) :
    IsValue x.toModel.unpack := by
  rw [exact_eq_finite_iff] at h
  cases hx : x.toModel.unpack with
  | notANumber => rw [hx] at h; cases h
  | infinity s => rw [hx] at h; cases h
  | zero s => trivial
  | finite s m e hm => exact isCanonical_of_unpack hx

theorem dyadic_pos {m : ℕ} (hm : 0 < m) (e : ℤ) : (0 : ℚ) < m * 2 ^ e := by
  have : (0 : ℚ) < m := Nat.cast_pos.mpr hm
  positivity

/-- Of two finite numbers the one of lower rank is the lower one. -/
theorem value_lt_of_rankOf_lt {a b : UnpackedFloat} {p q : ℚ} (ha : IsValue a) (hb : IsValue b)
    (hp : value? a = some p) (hq : value? b = some q) (h : rankOf a < rankOf b) : p < q := by
  unfold rankOf at h
  cases a with
  | notANumber => cases ha
  | infinity s => cases ha
  | zero s =>
    cases hp
    cases b with
    | notANumber => cases hb
    | infinity t => cases hb
    | zero t => exact absurd h (lt_irrefl _)
    | finite t n f hn =>
      cases hq
      cases t with
      | negative => simp [Sign.apply, Prod.Lex.toLex_lt_toLex] at h
      | positive => exact_mod_cast dyadic_pos hn f
  | finite s m e hm =>
    cases hp
    have hpos := dyadic_pos hm e
    cases b with
    | notANumber => cases hb
    | infinity t => cases hb
    | zero t =>
      cases hq
      cases s with
      | negative => simpa [Sign.apply] using hpos
      | positive => simp [Sign.apply, Prod.Lex.toLex_lt_toLex] at h
    | finite t n f hn =>
      cases hq
      have hpos' := dyadic_pos hn f
      cases s <;> cases t <;>
        simp only [Sign.apply, Prod.Lex.toLex_lt_toLex, Int.cast_neg, Int.cast_natCast] at h ⊢
      · have := dyadic_lt hb ha (by omega)
        linarith
      · linarith
      · omega
      · exact dyadic_lt ha hb (by omega)

theorem value_eq_of_rankOf_eq {a b : UnpackedFloat} {p q : ℚ} (ha : IsValue a) (hb : IsValue b)
    (hp : value? a = some p) (hq : value? b = some q) (h : rankOf a = rankOf b) : p = q := by
  have hn {u : UnpackedFloat} (hu : IsValue u) : u ≠ .notANumber := by
    rintro rfl
    exact hu
  rcases SameNumber.of_rankOf_eq (hn ha) (hn hb) h with rfl | ⟨s, t, rfl, rfl⟩
  · exact Option.some.inj (hp.symm.trans hq)
  · exact Option.some.inj (hp.symm.trans hq)

variable {x y : Float} {p q : ℚ}

theorem rank_lt_iff (hx : exact x = .finite p) (hy : exact y = .finite q) :
    rank x < rank y ↔ p < q := by
  have hp := exact_eq_finite_iff.mp hx
  have hq := exact_eq_finite_iff.mp hy
  have hvx := isValue_of_exact hx
  have hvy := isValue_of_exact hy
  constructor
  · exact value_lt_of_rankOf_lt hvx hvy hp hq
  · intro hlt
    by_contra hle
    rcases lt_or_eq_of_le (not_lt.mp hle) with h | h
    · exact lt_asymm hlt (value_lt_of_rankOf_lt hvy hvx hq hp h)
    · exact hlt.ne (value_eq_of_rankOf_eq hvy hvx hq hp h).symm

/-- Finite numbers are ordered as their values are. -/
theorem less_of_exact (hx : exact x = .finite p) (hy : exact y = .finite q) :
    Scalar.less x y = decide (p < q) := by
  rw [less_eq (by rw [hx]; simp) (by rw [hy]; simp), decide_eq_decide]
  exact rank_lt_iff hx hy

theorem lt_of_less (hx : exact x = .finite p) (hy : exact y = .finite q)
    (h : Scalar.less x y = true) : p < q := by
  rwa [less_of_exact hx hy, decide_eq_true_iff] at h

theorem le_iff_of_exact (hx : exact x = .finite p) (hy : exact y = .finite q) :
    x ≤ y ↔ p ≤ q := by
  have hxn : x.toModel.unpack ≠ .notANumber := by
    rw [Ne, ← exact_eq_nan_iff, hx]
    simp
  have hyn : y.toModel.unpack ≠ .notANumber := by
    rw [Ne, ← exact_eq_nan_iff, hy]
    simp
  have hle : x ≤ y ↔ (compare (rank x) (rank y)).isLE = true := by
    show decide ((x.toModel.unpack.le y.toModel.unpack) = true) = true ↔ _
    unfold UnpackedFloat.le rank
    rw [decide_eq_true_iff, compare_eq_compare_rankOf hxn hyn, Option.any_some]
  rw [hle, Ordering.isLE_iff_ne_gt, ← ne_eq, compare_le_iff_le, ← not_lt, rank_lt_iff hy hx, not_lt]

/-! ## How many there are -/

theorem length_le_of_nodup {xs : List Float} (h : xs.Nodup) : xs.length ≤ 2 ^ 64 := by
  have injective : Function.Injective fun x : Float => x.toModel.toBits.toBitVec.toFin := by
    rintro ⟨⟨a, ha⟩⟩ ⟨⟨b, hb⟩⟩ hab
    obtain rfl : a = b := UInt64.toBitVec_inj.mp (BitVec.toFin_inj.mp hab)
    rfl
  rw [← List.length_map fun x : Float => x.toModel.toBits.toBitVec.toFin]
  exact (h.map injective).length_le_card.trans_eq (Fintype.card_fin _)

end CueCheck.Binary64
