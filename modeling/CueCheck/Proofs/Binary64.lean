import CueCheck.Scalar.Binary64
import CueCheck.Tolerance
import Mathlib

/-!
# The order of binary64 numbers

Numbers are ordered by sign, then by exponent, then by mantissa. So each has a *rank* in a linear
order, and what is asked about times depends on their ranks only.

- **The order** (`less_eq`, `beq_eq`): on numbers, infinities included, `less` and `==` compare
  ranks. The two zeros share a rank.
- **What a rank settles**: numbers of one rank are the same number (`exact_eq_of_rank_eq`) and are
  equal to the same numbers up to tolerance (`almostEqual_congr`). `SameNumber` is the reason: they
  differ in the sign of a zero at most, and no magnitude shows that sign.
-/

namespace CueCheck.Binary64

open Float.Model UnpackedFloat

/-- Sign, exponent and mantissa; below zero the latter two count downwards. -/
abbrev Rank := ℤ ×ₗ ℤ ×ₗ ℤ

/-- The rank of an unpacked number. An infinity lies beyond the finite numbers of its sign. -/
def rankOf : UnpackedFloat → Rank
  | .infinity s => toLex (s.apply 2, toLex (0, 0))
  | .finite s m e _ => toLex (s.apply 1, toLex (s.apply e, s.apply m))
  | _ => toLex (0, toLex (0, 0))

/-- The rank of a number. -/
def rank (x : Float) : Rank :=
  rankOf x.toModel.unpack

/-! ## The order -/

private theorem compare_toLex {α β : Type} [LinearOrder α] [LinearOrder β] (a c : α) (b d : β) :
    compare (toLex (a, b)) (toLex (c, d)) = (compare a c).then (compare b d) := rfl

private theorem compare_neg_neg (a b : ℤ) : compare (-a) (-b) = (compare a b).swap := by
  rw [Int.compare_swap]
  simp only [compare, compareOfLessAndEq, neg_lt_neg_iff, neg_inj, eq_comm]

private theorem compare_natCast (a b : ℕ) : compare (a : ℤ) (b : ℤ) = compare a b := by
  simp only [compare, compareOfLessAndEq, Int.ofNat_lt, Int.natCast_inj]

theorem compare_eq_compare_rankOf {a b : UnpackedFloat} (ha : a ≠ .notANumber)
    (hb : b ≠ .notANumber) : a.compare b = some (compare (rankOf a) (rankOf b)) := by
  cases a with
  | notANumber => exact absurd rfl ha
  | infinity s =>
    cases b with
    | notANumber => exact absurd rfl hb
    | infinity t => cases s <;> cases t <;> rfl
    | zero t => cases s <;> rfl
    | finite t n f => cases s <;> cases t <;> rfl
  | zero s =>
    cases b with
    | notANumber => exact absurd rfl hb
    | infinity t => cases t <;> rfl
    | zero t => rfl
    | finite t n f => cases t <;> rfl
  | finite s m e =>
    cases b with
    | notANumber => exact absurd rfl hb
    | infinity t => cases s <;> cases t <;> rfl
    | zero t => cases s <;> rfl
    | finite t n f =>
      cases s <;> cases t
      · simp only [UnpackedFloat.compare, rankOf, compare_toLex, Sign.apply, compare_neg_neg,
          compare_natCast, Ordering.swap_then]
        rfl
      · rfl
      · rfl
      · simp only [UnpackedFloat.compare, rankOf, compare_toLex, Sign.apply, compare_natCast]
        rfl

theorem unpack_pack_nan : (Float.Model.pack .notANumber).unpack = .notANumber := rfl

theorem exact_eq_nan_iff {x : Float} : exact x = .nan ↔ x.toModel.unpack = .notANumber := by
  unfold exact dyadic?
  cases x.toModel.unpack with
  | notANumber => exact ⟨fun _ => rfl, fun _ => rfl⟩
  | infinity s => cases s <;> simp
  | zero s => simp
  | finite s m e => cases s <;> simp

theorem exists_exact_eq {α : Type} [Scalar α] {x : α} (h : Scalar.isFinite x = true) :
    ∃ q, Scalar.exact x = .finite q := by
  unfold Scalar.isFinite at h
  split at h
  · rename_i q hq
    exact ⟨q, hq⟩
  · cases h

theorem exact_ne_nan {x : Float} (h : Scalar.isFinite x = true) : exact x ≠ .nan := by
  obtain ⟨q, hq⟩ := exists_exact_eq h
  intro hx
  cases hq.symm.trans hx

variable {x y z w : Float}

theorem lt_iff_compare : x < y ↔ x.toModel.unpack.compare y.toModel.unpack = some .lt := by
  show decide ((x.toModel.unpack.compare y.toModel.unpack == some .lt) = true) = true ↔ _
  rw [decide_eq_true_iff]
  exact beq_iff_eq

/-- The test for order compares ranks. -/
theorem less_eq (hx : exact x ≠ .nan) (hy : exact y ≠ .nan) :
    Scalar.less x y = decide (rank x < rank y) := by
  rw [Ne, exact_eq_nan_iff] at hx hy
  unfold Scalar.less rank
  rw [decide_eq_decide, lt_iff_compare, compare_eq_compare_rankOf hx hy, Option.some_inj,
    compare_lt_iff_lt]

/-- The test for equality compares ranks. -/
theorem beq_eq (hx : exact x ≠ .nan) (hy : exact y ≠ .nan) :
    (x == y) = decide (rank x = rank y) := by
  rw [Ne, exact_eq_nan_iff] at hx hy
  have heq : (x == y) = true ↔ x.toModel.unpack.compare y.toModel.unpack = some .eq := by
    show (x.toModel.unpack.compare y.toModel.unpack == some .eq) = true ↔ _
    exact beq_iff_eq
  unfold rank
  rw [Bool.eq_iff_iff, heq, compare_eq_compare_rankOf hx hy, Option.some_inj, compare_eq_iff_eq,
    decide_eq_true_iff]

/-! ## What a rank settles -/

/-- Equal, or two zeros. -/
def SameNumber (a b : UnpackedFloat) : Prop :=
  a = b ∨ ∃ s t, a = .zero s ∧ b = .zero t

namespace SameNumber

variable {a b c d : UnpackedFloat}

theorem refl (a : UnpackedFloat) : SameNumber a a :=
  .inl rfl

theorem zero (s t : Sign) : SameNumber (.zero s) (.zero t) :=
  .inr ⟨s, t, rfl, rfl⟩

theorem of_rankOf_eq (ha : a ≠ .notANumber) (hb : b ≠ .notANumber) (h : rankOf a = rankOf b) :
    SameNumber a b := by
  unfold rankOf at h
  cases a with
  | notANumber => exact absurd rfl ha
  | infinity s =>
    cases b with
    | notANumber => exact absurd rfl hb
    | infinity t => cases s <;> cases t <;> first | exact refl _ | simp [Sign.apply] at h
    | zero t => cases s <;> simp [Sign.apply] at h
    | finite t n f => cases s <;> cases t <;> simp [Sign.apply] at h
  | zero s =>
    cases b with
    | notANumber => exact absurd rfl hb
    | infinity t => cases t <;> simp [Sign.apply] at h
    | zero t => exact zero s t
    | finite t n f => cases t <;> simp [Sign.apply] at h
  | finite s m e =>
    cases b with
    | notANumber => exact absurd rfl hb
    | infinity t => cases s <;> cases t <;> simp [Sign.apply] at h
    | zero t => cases s <;> simp [Sign.apply] at h
    | finite t n f =>
      cases s <;> cases t <;> simp [Sign.apply] at h
      · obtain ⟨rfl, rfl⟩ := h
        exact refl _
      · obtain ⟨rfl, rfl⟩ := h
        exact refl _

theorem exists_sub_zero_zero (spec : Format) (s t : Sign) :
    ∃ u, UnpackedFloat.sub spec (.zero s) (.zero t) = .zero u := by
  cases s <;> cases t <;> exact ⟨_, rfl⟩

theorem sub_zero_zero (spec : Format) (s t s' t' : Sign) :
    SameNumber (UnpackedFloat.sub spec (.zero s) (.zero t))
      (UnpackedFloat.sub spec (.zero s') (.zero t')) := by
  obtain ⟨u, hu⟩ := exists_sub_zero_zero spec s t
  obtain ⟨u', hu'⟩ := exists_sub_zero_zero spec s' t'
  exact .inr ⟨u, u', hu, hu'⟩

/-- A difference depends on the two numbers, but for the sign of a zero. -/
theorem sub (spec : Format) (h : SameNumber a c) (h' : SameNumber b d) :
    SameNumber (a.sub spec b) (c.sub spec d) := by
  rcases h with rfl | ⟨s, t, rfl, rfl⟩ <;> rcases h' with rfl | ⟨s', t', rfl, rfl⟩
  · exact refl _
  · cases a with
    | zero s => exact sub_zero_zero _ _ _ _ _
    | _ => exact refl _
  · cases b with
    | zero s => exact sub_zero_zero _ _ _ _ _
    | _ => exact refl _
  · exact sub_zero_zero _ _ _ _ _

theorem unpack_pack_zero (s : Sign) : (Float.Model.pack (.zero s)).unpack = .zero s := by
  cases s <;> rfl

theorem unpack_pack (h : SameNumber a b) :
    SameNumber (Float.Model.pack a).unpack (Float.Model.pack b).unpack := by
  rcases h with rfl | ⟨s, t, rfl, rfl⟩
  · exact refl _
  · rw [unpack_pack_zero, unpack_pack_zero]
    exact zero s t

theorem abs_eq (h : SameNumber a b) : a.abs = b.abs := by
  rcases h with rfl | ⟨s, t, rfl, rfl⟩ <;> rfl

end SameNumber

theorem sameNumber_of_rank_eq (hx : exact x ≠ .nan) (hy : exact y ≠ .nan) (h : rank x = rank y) :
    SameNumber x.toModel.unpack y.toModel.unpack := by
  rw [Ne, exact_eq_nan_iff] at hx hy
  exact .of_rankOf_eq hx hy h

/-- Two numbers of one rank are the same number. -/
theorem exact_eq_of_rank_eq (hx : exact x ≠ .nan) (hy : exact y ≠ .nan) (h : rank x = rank y) :
    exact x = exact y := by
  unfold exact dyadic?
  rcases sameNumber_of_rank_eq hx hy h with h | ⟨s, t, hs, ht⟩
  · rw [h]
  · rw [hs, ht]

theorem abs_eq_of_sameNumber (h : SameNumber x.toModel.unpack y.toModel.unpack) :
    Scalar.abs x = Scalar.abs y := by
  show Float.ofModel (.pack x.toModel.unpack.abs) = .ofModel (.pack y.toModel.unpack.abs)
  rw [h.abs_eq]

/-- Numbers of the same ranks are equal up to tolerance or not alike. -/
theorem almostEqual_congr (hx : exact x ≠ .nan) (hy : exact y ≠ .nan) (hz : exact z ≠ .nan)
    (hw : exact w ≠ .nan) (hxz : rank x = rank z) (hyw : rank y = rank w) :
    almostEqual x y = almostEqual z w := by
  have h := sameNumber_of_rank_eq hx hz hxz
  have h' := sameNumber_of_rank_eq hy hw hyw
  have hsub : SameNumber (x - y).toModel.unpack (z - w).toModel.unpack :=
    (h.sub .binary64 h').unpack_pack
  unfold almostEqual
  rw [abs_eq_of_sameNumber h, abs_eq_of_sameNumber h', abs_eq_of_sameNumber hsub]

end CueCheck.Binary64
