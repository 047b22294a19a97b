import CueCheck.Proofs.Binary64.Error

/-!
# Numbers near rationals

Chains of operations, with one bound for the relative error of all of them. Every product and
quotient makes it four times as great, for the errors of the operands and its own.

- **Nearness** (`IsNear`): a number is off from a rational by a part `ε` of it at most.
- **Operations** (`isNear_sub`, `isNear_ofInt`, `IsNear.mul`, `IsNear.div`): results far from the
  ends of the range are near the exact ones.
- **The tolerance** (`IsNear.almostEqual_eq_false`): numbers near rationals that are further apart
  than one part in 3000 are told apart.
-/

namespace CueCheck.Binary64

/-- The number is finite, and off from the rational by a part `ε` of it at most. -/
def IsNear (ε : ℚ) (x : Float) (p : ℚ) : Prop :=
  ∃ r, exact x = .finite r ∧ |r - p| ≤ ε * |p|

variable {ε : ℚ} {x y : Float} {p q : ℚ}

theorem IsNear.mono {δ : ℚ} (h : IsNear ε x p) (hδ : ε ≤ δ) : IsNear δ x p := by
  obtain ⟨r, hr, herror⟩ := h
  exact ⟨r, hr, herror.trans (mul_le_mul_of_nonneg_right hδ (abs_nonneg p))⟩

theorem isNear_of_exact (h : exact x = .finite p) : IsNear (1 / 2 ^ 50) x p := by
  refine ⟨p, h, ?_⟩
  rw [sub_self, abs_zero]
  positivity

/-! ## Operations -/

theorem isNear_sub (hx : exact x = .finite p) (hy : exact y = .finite q)
    (h : |p - q| ≤ greatest) : IsNear (1 / 2 ^ 50) (x - y) (p - q) := by
  obtain ⟨r, hr, herror⟩ := sub_error hx hy h
  exact ⟨r, hr, by linarith [abs_nonneg (p - q)]⟩

theorem isNear_ofInt {n : ℕ} (h : (n : ℚ) ≤ greatest) : IsNear (1 / 2 ^ 50) (Scalar.ofInt n) n := by
  obtain ⟨r, hr, herror⟩ := ofInt_error h
  refine ⟨r, hr, ?_⟩
  rwa [Nat.abs_cast, one_div_mul_eq_div]

theorem abs_le_two_mul {r : ℚ} (hε : ε ≤ 1 / 8) (hr : |r - p| ≤ 5 / 2 * ε * |p|) :
    |r| ≤ 2 * |p| := by
  have hp := abs_nonneg p
  have := mul_le_mul_of_nonneg_right hε hp
  have := abs_sub_abs_le_abs_sub r p
  linarith

/-- Rounding a result that is near enough to the exact one keeps it near. -/
theorem isNear_of_error {r s : ℚ} (hε : 1 / 2 ^ 50 ≤ ε ∧ ε ≤ 1 / 8)
    (hr : |r - p| ≤ 5 / 2 * ε * |p|) (hlo : 2 ^ 60 * least ≤ |p|) (hs : exact x = .finite s)
    (herror : |s - r| ≤ |r| / 2 ^ 52 + least) : IsNear (4 * ε) x p := by
  refine ⟨s, hs, ?_⟩
  have hp := abs_nonneg p
  have hfine : 1 / 2 ^ 50 * |p| ≤ ε * |p| := mul_le_mul_of_nonneg_right hε.1 hp
  have := abs_le_two_mul hε.2 hr
  have := abs_sub_le s r p
  linarith

theorem IsNear.mul (hε : 1 / 2 ^ 50 ≤ ε ∧ ε ≤ 1 / 8) (hx : IsNear ε x p) (hy : IsNear ε y q)
    (hlo : 2 ^ 60 * least ≤ |p * q|) (hhi : 2 * |p * q| ≤ greatest) :
    IsNear (4 * ε) (x * y) (p * q) := by
  obtain ⟨r, hr, hrerror⟩ := hx
  obtain ⟨s, hs, hserror⟩ := hy
  have hpos : 0 ≤ ε := le_trans (by positivity) hε.1
  have hproduct : |r * s - p * q| ≤ 5 / 2 * ε * |p * q| := by
    calc |r * s - p * q| = |(r - p) * q + p * (s - q) + (r - p) * (s - q)| := by congr 1; ring
      _ ≤ |r - p| * |q| + |p| * |s - q| + |r - p| * |s - q| := by
        rw [← abs_mul, ← abs_mul, ← abs_mul]
        exact abs_add_three _ _ _
      _ ≤ ε * |p| * |q| + |p| * (ε * |q|) + ε * |p| * (ε * |q|) := by gcongr
      _ = (2 + ε) * (ε * (|p| * |q|)) := by ring
      _ ≤ 5 / 2 * (ε * (|p| * |q|)) := by
        gcongr
        linarith [hε.2]
      _ = 5 / 2 * ε * |p * q| := by
        rw [abs_mul]
        ring
  obtain ⟨t, ht, hterror⟩ := mul_error hr hs ((abs_le_two_mul hε.2 hproduct).trans hhi)
  exact isNear_of_error hε hproduct hlo ht hterror

theorem IsNear.div (hε : 1 / 2 ^ 50 ≤ ε ∧ ε ≤ 1 / 8) (hx : IsNear ε x p) (hy : IsNear ε y q)
    (h0 : q ≠ 0) (hlo : 2 ^ 60 * least ≤ |p / q|) (hhi : 2 * |p / q| ≤ greatest) :
    IsNear (4 * ε) (x / y) (p / q) := by
  obtain ⟨r, hr, hrerror⟩ := hx
  obtain ⟨s, hs, hserror⟩ := hy
  have hpos : 0 ≤ ε := le_trans (by positivity) hε.1
  have hq : 0 < |q| := abs_pos.mpr h0
  have hslow : 4 / 5 * |q| ≤ |s| := by
    have := abs_sub_abs_le_abs_sub q s
    rw [abs_sub_comm] at this
    have : ε * |q| ≤ 1 / 8 * |q| := mul_le_mul_of_nonneg_right hε.2 hq.le
    linarith
  have hs0 : s ≠ 0 := abs_pos.mp (by linarith)
  have hquotient : |r / s - p / q| ≤ 5 / 2 * ε * |p / q| := by
    rw [div_sub_div _ _ hs0 h0, abs_div, div_le_iff₀ (by positivity)]
    calc |r * q - s * p| = |(r - p) * q - p * (s - q)| := by congr 1; ring
      _ ≤ |r - p| * |q| + |p| * |s - q| := by
        rw [← abs_mul, ← abs_mul]
        exact abs_sub _ _
      _ ≤ ε * |p| * |q| + |p| * (ε * |q|) := by gcongr
      _ = 5 / 2 * ε * |p| * (4 / 5 * |q|) := by ring
      _ ≤ 5 / 2 * ε * |p| * |s| := by gcongr
      _ = 5 / 2 * ε * |p / q| * |s * q| := by
        rw [abs_div, abs_mul]
        field_simp
  obtain ⟨t, ht, hterror⟩ := div_error hr hs hs0 ((abs_le_two_mul hε.2 hquotient).trans hhi)
  exact isNear_of_error hε hquotient hlo ht hterror

/-! ## The tolerance -/

/-- Numbers near rationals, neither of them negative, that are further apart than one part in 3000
are told apart. -/
theorem IsNear.almostEqual_eq_false (hε : ε ≤ 1 / 2 ^ 20) (hx : IsNear ε x p) (hy : IsNear ε y q)
    (hp : 0 ≤ p) (hbound : 2 ^ 14 * (p + q) ≤ greatest) (hmin : 2 * least ≤ q - p)
    (hfar : p + q ≤ 3000 * (q - p)) : almostEqual x y = false := by
  obtain ⟨r, hr, hrerror⟩ := hx.mono hε
  obtain ⟨s, hs, hserror⟩ := hy.mono hε
  have hleast := least_pos
  rw [abs_of_nonneg hp] at hrerror
  rw [abs_of_nonneg (by linarith : 0 ≤ q)] at hserror
  have hrabs : |r| ≤ p + 1 / 2 ^ 20 * p := by
    have := abs_sub_abs_le_abs_sub r p
    rw [abs_of_nonneg hp] at this
    linarith
  have hsabs : |s| ≤ q + 1 / 2 ^ 20 * q := by
    have := abs_sub_abs_le_abs_sub s q
    rw [abs_of_nonneg (by linarith : 0 ≤ q)] at this
    linarith
  have hdiff : q - p - 1 / 2 ^ 20 * (p + q) ≤ |r - s| := by
    rw [abs_le] at hrerror hserror
    rw [abs_sub_comm]
    have := le_abs_self (s - r)
    linarith
  exact Binary64.almostEqual_eq_false hr hs (by linarith) (by linarith) (by linarith)

end CueCheck.Binary64
