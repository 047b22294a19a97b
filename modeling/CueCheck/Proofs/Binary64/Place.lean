import CueCheck.Number
import CueCheck.Proofs.Binary64.Overflow
import CueCheck.Text.Numeral
import Mathlib

/-!
# Places on the extended number line

Numbers of a level text are compared by value, whole numbers and binary64 numbers alike. So all but
NaN have a place in one linear order.

- **The order** (`less_eq_place`, `Number.less_eq_place`): what is less stands at a lesser place.
- **Equality** (`Number.same_eq_exact`): numbers are the same if they have the same value.
- **Decimals** (`toScalar_ne_nan`): no written number is NaN.
-/

namespace CueCheck

/-- Places in order: the infinities lie around the finite numbers. -/
abbrev Place := ℤ ×ₗ ℚ

/-- Where a value stands. -/
def Extended.place : Extended → Place
  | .finite q => toLex (0, q)
  | .infinite negative => toLex (if negative then -1 else 1, 0)
  | .nan => toLex (2, 0)

theorem Extended.place_injective : Function.Injective Extended.place := by
  intro a b h
  cases a with
  | finite p =>
    cases b with
    | finite q => simpa [place] using h
    | infinite t => cases t <;> simp [place] at h
    | nan => simp [place] at h
  | infinite s =>
    cases b with
    | finite q => cases s <;> simp [place] at h
    | infinite t => cases s <;> cases t <;> simp [place] at h ⊢
    | nan => cases s <;> simp [place] at h
  | nan =>
    cases b with
    | finite q => simp [place] at h
    | infinite t => cases t <;> simp [place] at h
    | nan => rfl

namespace Binary64

open Float.Model UnpackedFloat

variable {x y : Float}

/-! ## The order -/

theorem rank_place_of_infinity {s : Sign} (hx : x.toModel.unpack = .infinity s) :
    rank x = toLex (s.apply 2, toLex (0, 0)) ∧ (exact x).place = toLex (s.apply 1, (0 : ℚ)) := by
  unfold rank exact
  rw [hx]
  cases s <;> exact ⟨rfl, rfl⟩

/-- A finite number has its rank between the infinities. -/
theorem exists_finite_between (hx : exact x ≠ .nan)
    (hu : ¬∃ s, x.toModel.unpack = .infinity s) :
    ∃ q, exact x = .finite q ∧ (∀ r, toLex (-2, r) < rank x) ∧ ∀ r, rank x < toLex (2, r) := by
  have between {k : ℤ} (r : ℤ ×ₗ ℤ) (hr : rank x = toLex (k, r)) (hk : -2 < k ∧ k < 2) :
      (∀ r, toLex (-2, r) < rank x) ∧ ∀ r, rank x < toLex (2, r) := by
    rw [hr]
    exact ⟨fun _ => Prod.Lex.toLex_lt_toLex.mpr (.inl hk.1),
      fun _ => Prod.Lex.toLex_lt_toLex.mpr (.inl hk.2)⟩
  rw [Ne, exact_eq_nan_iff] at hx
  cases hv : x.toModel.unpack with
  | notANumber => exact absurd hv hx
  | infinity s => exact absurd ⟨s, hv⟩ hu
  | zero s =>
    have hr : rank x = toLex (0, toLex (0, 0)) := by rw [rank, hv]; rfl
    exact ⟨_, exact_eq_finite_iff.mpr (by rw [hv]; rfl), between _ hr (by decide)⟩
  | finite s m e hm =>
    have hr : rank x = toLex (s.apply 1, toLex (s.apply e, s.apply m)) := by rw [rank, hv]; rfl
    refine ⟨_, exact_eq_finite_iff.mpr (by rw [hv]; rfl), between _ hr ?_⟩
    cases s <;> decide

/-- Finite numbers lie on one side of an infinity, by rank and by place. -/
theorem infinity_lt_iff {s : Sign} (hx : x.toModel.unpack = .infinity s) (hy : exact y ≠ .nan)
    (hv : ¬∃ t, y.toModel.unpack = .infinity t) :
    ((rank x < rank y ↔ s = .negative) ∧ ((exact x).place < (exact y).place ↔ s = .negative)) ∧
      (rank y < rank x ↔ s = .positive) ∧
        ((exact y).place < (exact x).place ↔ s = .positive) := by
  obtain ⟨hrank, hplace⟩ := rank_place_of_infinity hx
  obtain ⟨q, hq, above, below⟩ := exists_finite_between hy hv
  rw [hrank, hplace, hq]
  cases s with
  | negative =>
    have first := above (toLex (0, 0))
    simp [Sign.apply, Extended.place, Prod.Lex.toLex_lt_toLex, first, first.asymm]
  | positive =>
    have last := below (toLex (0, 0))
    simp [Sign.apply, Extended.place, Prod.Lex.toLex_lt_toLex, last, last.asymm]

/-- The place of an unpacked number follows its rank. -/
theorem rank_lt_iff_place (hx : exact x ≠ .nan) (hy : exact y ≠ .nan) :
    rank x < rank y ↔ (exact x).place < (exact y).place := by
  by_cases hu : ∃ s, x.toModel.unpack = .infinity s
  · obtain ⟨s, hs⟩ := hu
    by_cases hv : ∃ t, y.toModel.unpack = .infinity t
    · obtain ⟨t, ht⟩ := hv
      obtain ⟨hrx, hpx⟩ := rank_place_of_infinity hs
      obtain ⟨hry, hpy⟩ := rank_place_of_infinity ht
      rw [hrx, hry, hpx, hpy]
      cases s <;> cases t <;> simp [Sign.apply, Prod.Lex.toLex_lt_toLex]
    · obtain ⟨⟨byRank, byPlace⟩, -⟩ := infinity_lt_iff hs hy hv
      exact byRank.trans byPlace.symm
  · by_cases hv : ∃ t, y.toModel.unpack = .infinity t
    · obtain ⟨t, ht⟩ := hv
      obtain ⟨-, byRank, byPlace⟩ := infinity_lt_iff ht hx hu
      exact byRank.trans byPlace.symm
    · obtain ⟨p, hp, -⟩ := exists_finite_between hx hu
      obtain ⟨q, hq, -⟩ := exists_finite_between hy hv
      rw [rank_lt_iff hp hq, hp, hq]
      simp [Extended.place, Prod.Lex.toLex_lt_toLex]

theorem less_eq_place (hx : exact x ≠ .nan) (hy : exact y ≠ .nan) :
    Scalar.less x y = decide ((Scalar.exact x).place < (Scalar.exact y).place) := by
  rw [less_eq hx hy, decide_eq_decide]
  exact rank_lt_iff_place hx hy

/-- Numbers of one rank are those of one value. -/
theorem rank_eq_iff_exact (hx : exact x ≠ .nan) (hy : exact y ≠ .nan) :
    rank x = rank y ↔ exact x = exact y := by
  constructor
  · exact exact_eq_of_rank_eq hx hy
  · intro h
    refine le_antisymm (not_lt.mp ?_) (not_lt.mp ?_)
    · rw [rank_lt_iff_place hy hx, h]
      exact lt_irrefl _
    · rw [rank_lt_iff_place hx hy, h]
      exact lt_irrefl _

theorem beq_eq_exact (hx : exact x ≠ .nan) (hy : exact y ≠ .nan) :
    (x == y) = decide (Scalar.exact x = Scalar.exact y) := by
  rw [beq_eq hx hy, decide_eq_decide]
  exact rank_eq_iff_exact hx hy

/-- Finite numbers are equal if their values are. -/
theorem beq_of_exact {p q : ℚ} (hx : exact x = .finite p) (hy : exact y = .finite q) :
    (x == y) = decide (p = q) := by
  rw [beq_eq (by rw [hx]; simp) (by rw [hy]; simp), decide_eq_decide,
    rank_eq_iff_exact (by rw [hx]; simp) (by rw [hy]; simp), hx, hy, Extended.finite.injEq]

end Binary64

/-! ## Numbers -/

namespace Number

/-- Not NaN. Of an infinity the sign is known. -/
def IsNumber {α : Type} [Scalar α] (n : Number α) : Prop :=
  n.exact ≠ .nan

variable {m n : Number Float}

theorem less_eq_place (hm : m.IsNumber) (hn : n.IsNumber) :
    m.less n = decide (m.exact.place < n.exact.place) := by
  cases m with
  | whole m =>
    cases n with
    | whole n => rw [less_whole]; simp [exact, Extended.place, Prod.Lex.toLex_lt_toLex]
    | real y =>
      cases hv : Scalar.exact y with
      | finite q => simp [less, exact, hv, Extended.place, Prod.Lex.toLex_lt_toLex]
      | infinite t => cases t <;> simp [less, exact, hv, Extended.place, Prod.Lex.toLex_lt_toLex]
      | nan => exact absurd hv hn
  | real x =>
    cases n with
    | whole n =>
      cases hv : Scalar.exact x with
      | finite q => simp [less, exact, hv, Extended.place, Prod.Lex.toLex_lt_toLex]
      | infinite t => cases t <;> simp [less, exact, hv, Extended.place, Prod.Lex.toLex_lt_toLex]
      | nan => exact absurd hv hm
    | real y => exact Binary64.less_eq_place hm hn

theorem same_eq_exact (hm : m.IsNumber) (hn : n.IsNumber) :
    m.same n = decide (m.exact = n.exact) := by
  cases m with
  | whole m =>
    cases n with
    | whole n => rw [same_whole]; simp [exact]
    | real y => cases hv : Scalar.exact y <;> simp [same, exact, hv]
  | real x =>
    cases n with
    | whole n => cases hv : Scalar.exact x <;> simp [same, exact, hv]
    | real y => exact Binary64.beq_eq_exact hm hn

end Number

/-! ## Decimals -/

namespace Binary64

open Float.Model UnpackedFloat

variable {x y : Float}

theorem div_ne_nan (hx : exact x ≠ .nan) (hy : Scalar.isFinite y = true)
    (h0 : exact y ≠ .finite 0) : exact (x / y) ≠ .nan := by
  rw [Ne, exact_eq_nan_iff] at hx
  refine exact_pack_ne_nan ?_
  rcases unpack_of_isFinite hy with ⟨t, ht⟩ | ⟨t, n, f, hn, ht⟩
  · exact absurd (exact_eq_finite_iff.mpr (by rw [ht]; rfl)) h0
  · rw [ht]
    cases hu : x.toModel.unpack with
    | notANumber => exact absurd hu hx
    | infinity s => simp [UnpackedFloat.div]
    | zero s => simp [UnpackedFloat.div]
    | finite s m e hm => exact roundWithAccuracy_ne_nan _ _ _ _

theorem neg_ne_nan (hx : exact x ≠ .nan) : exact (-x) ≠ .nan := by
  rw [Ne, exact_eq_nan_iff] at hx
  refine exact_pack_ne_nan ?_
  cases hu : x.toModel.unpack with
  | notANumber => exact absurd hu hx
  | _ => simp [UnpackedFloat.neg]

theorem unpacked_ofScientific_ne_nan (m : ℕ) (e : ℤ) :
    UnpackedFloat.ofScientific .binary64 m e ≠ .notANumber := by
  unfold UnpackedFloat.ofScientific
  split
  · simp
  · split
    · simp
    · split
      · simp
      · split <;> exact roundWithAccuracy_ne_nan _ _ _ _

theorem ofScientific_ne_nan (m : ℕ) (s : Bool) (e : ℕ) :
    exact (Float.ofScientific m s e) ≠ .nan := by
  unfold Float.ofScientific
  split
  · rename_i h
    have whole : exact m.toUInt64.toFloat ≠ .nan := exact_pack_ne_nan (normalize_ne_nan _ _ _)
    have powers : ∀ power ∈ Float.exactlyRepresentablePowersOfTen.toList,
        Scalar.isFinite power = true ∧ exact power ≠ .finite 0 := by
      decide +kernel
    have inside : e < Float.exactlyRepresentablePowersOfTen.size := Nat.lt_succ_of_le h.2
    have power := powers _ (Array.getElem_mem_toList inside)
    simp only
    split
    · exact div_ne_nan whole power.1 power.2
    · exact mul_ne_nan whole power.1 power.2
  · exact exact_pack_ne_nan (unpacked_ofScientific_ne_nan _ _)

theorem toScalar_ne_nan (d : Decimal) : exact (d.toScalar : Float) ≠ .nan := by
  unfold Decimal.toScalar
  have magnitude := ofScientific_ne_nan d.mantissa (d.exponent < 0) d.exponent.natAbs
  split
  · exact neg_ne_nan magnitude
  · exact magnitude

end Binary64

end CueCheck
