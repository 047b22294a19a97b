import CueCheck.Proofs.RateTable.InForce
import Mathlib

/-!
# What a table accumulates

A rate table converts a key to the integral of the rate in force.

- **Rows** (`follows_accumulate`, `isChain_rate_ofChanges`): leaving out changes that repeat the
  rate before them leaves rows which the rate in force follows still, and which change it each time.
- **Lookup** (`rate_lastRow`): the row in force at a key has the rate in force there.
- **Integral** (`integral_of_follows`): from row to row, the value of a table is the integral of the
  rate that its rows follow.
- **The result** (`ofChanges_accumulates`): the table of a list of changes has the rate in force at
  each key and its integral as value.
- **Between changes** (`forward_of_none_between`): there the value grows by one rate.
-/

namespace CueCheck

open MeasureTheory Scalar

namespace RateTable

/-! ## Rows -/

/-- No row repeats the rate before it. -/
theorem isChain_rate_ofChanges (changes : List (RateChange ℚ)) (default : ℚ) :
    (ofChanges changes default).rows.IsChain fun row next => row.rate ≠ next.rate :=
  (isChain_accumulate _ _).imp fun _ _ => And.right

section Follows

variable {K : Type} [Field K] [LinearOrder K]

theorem follows_accumulate {f : K → ℚ} {row : Breakpoint ℚ} {changes : List (RateChange ℚ)}
    (h : Follows f row.change changes) :
    Follows f row.change ((accumulate row changes).map Breakpoint.change) := by
  induction changes generalizing row with
  | nil => exact h
  | cons change rest ih =>
    rw [accumulate]
    split
    · rename_i same
      exact ih (h.2.extend h.1 (beq_iff_eq.mp same))
    · exact ⟨h.1, ih h.2⟩

/-- The rate in force follows the rows of the table of a list of changes. -/
theorem follows_ofChanges [IsStrictOrderedRing K] (changes : List (RateChange ℚ)) (default : ℚ) :
    Follows (rateInForce changes default : K → ℚ) (ofChanges changes default).first.change
      ((ofChanges changes default).later.map Breakpoint.change) :=
  follows_accumulate (follows_rateInForce changes default)

end Follows

/-! ## Lookup -/

theorem rate_lastRow {f : ℚ → ℚ} {row : Breakpoint ℚ} {later : List (Breakpoint ℚ)} {key : ℚ}
    (follows : Follows f row.change (later.map Breakpoint.change)) (reached : row.key ≤ key) :
    (lastRow key row later).rate = f key := by
  induction later generalizing row with
  | nil => exact (follows key reached).symm
  | cons next later ih =>
    rw [lastRow]
    split
    · rename_i past
      exact ih follows.2 past
    · rename_i before
      exact (follows.1 key reached (not_le.mp before)).symm

/-! ## Integral -/

/-- The integral of a rate that does not change within an interval. -/
theorem integral_of_constant {f : ℝ → ℚ} {a b : ℝ} {rate : ℚ} (le : a ≤ b)
    (constant : ∀ x, a < x → x < b → f x = rate) :
    IntervalIntegrable (fun x => (f x : ℝ)) volume a b ∧
      ∫ x in a..b, (f x : ℝ) = (b - a) * rate := by
  have same : Set.EqOn (fun _ => (rate : ℝ)) (fun x => (f x : ℝ)) (Set.uIoo a b) := by
    intro x mem
    rw [Set.uIoo_of_le le] at mem
    exact congrArg _ (constant x mem.1 mem.2).symm
  refine ⟨intervalIntegrable_const.congr_uIoo same, ?_⟩
  rw [← intervalIntegral.integral_congr_uIoo same, intervalIntegral.integral_const, smul_eq_mul]

/-- From a row on, the value of a table is the integral of the rate that its rows follow. -/
theorem integral_of_follows {f : ℝ → ℚ} {row : Breakpoint ℚ} {later : List (Breakpoint ℚ)}
    {key : ℚ} (chain : (row :: later).IsChain Continues)
    (keys : (row :: later).Pairwise fun row next => row.key < next.key)
    (follows : Follows f row.change (later.map Breakpoint.change)) (reached : row.key ≤ key) :
    IntervalIntegrable (fun x => (f x : ℝ)) volume row.key key ∧
      ∫ x in (row.key : ℝ)..key, (f x : ℝ) = extend (lastRow key row later) key - row.value := by
  induction later generalizing row with
  | nil =>
    obtain ⟨integrable, integral⟩ := integral_of_constant (Rat.cast_le.mpr reached)
      fun x after _ => follows x after.le
    refine ⟨integrable, integral.trans ?_⟩
    simp only [lastRow, extend, Breakpoint.change]
    push_cast
    ring
  | cons next later ih =>
    rw [List.isChain_cons_cons] at chain
    obtain ⟨first, keys⟩ := List.pairwise_cons.mp keys
    have lt : row.key < next.key := first next List.mem_cons_self
    rw [lastRow]
    split
    · rename_i past
      -- The integral up to the next row is what the row adds up to it.
      obtain ⟨integrable, integral⟩ := integral_of_constant (Rat.cast_le.mpr lt.le)
        fun x after before => follows.1 x after.le before
      obtain ⟨integrable', integral'⟩ := ih chain.2 keys follows.2 past
      refine ⟨integrable.trans integrable', ?_⟩
      rw [← intervalIntegral.integral_add_adjacent_intervals integrable integrable', integral,
        integral', chain.1]
      simp only [Breakpoint.change]
      push_cast
      ring
    · rename_i before
      obtain ⟨integrable, integral⟩ := integral_of_constant (Rat.cast_le.mpr reached)
        fun x after before' => follows.1 x after.le
          (before'.trans (Rat.cast_lt.mpr (not_le.mp before)))
      refine ⟨integrable, integral.trans ?_⟩
      simp only [extend, Breakpoint.change]
      push_cast
      ring

/-! ## The result -/

theorem rateAt_ofChanges (changes : List (RateChange ℚ)) (default key : ℚ) :
    (ofChanges changes default).rateAt key = rateInForce changes default key := by
  unfold rateAt
  rw [rowByKey_eq_lastRow (keys_ofChanges changes default)]
  rcases le_total key 0 with before | reached
  · rw [lastRow_of_nonpos before, rateInForce_of_nonpos before]
    rfl
  · exact rate_lastRow (follows_ofChanges changes default) reached

theorem integral_rateInForce (changes : List (RateChange ℚ)) (default key : ℚ) :
    IntervalIntegrable (fun x : ℝ => (rateInForce changes default x : ℝ)) volume 0 key ∧
      ∫ x in (0 : ℝ)..key, (rateInForce changes default x : ℝ) =
        (ofChanges changes default).forward key := by
  have origin : (ofChanges changes default).first.key = 0 ∧
      (ofChanges changes default).first.value = 0 := ⟨rfl, rfl⟩
  rw [forward_eq_extend (keys_ofChanges changes default)]
  rcases le_total key 0 with before | reached
  · have constant (x : ℝ) (_ : key < x) (h : x < 0) :
        rateInForce changes default x = (ofChanges changes default).first.rate :=
      rateInForce_of_nonpos h.le
    obtain ⟨integrable, integral⟩ := integral_of_constant (Rat.cast_nonpos.mpr before) constant
    refine ⟨integrable.symm, ?_⟩
    rw [intervalIntegral.integral_symm, integral, lastRow_of_nonpos before, extend, origin.1,
      origin.2]
    push_cast
    ring
  · obtain ⟨integrable, integral⟩ := integral_of_follows (isChain_ofChanges changes default)
      (keys_ofChanges changes default) (follows_ofChanges changes default) reached
    rw [origin.1, Rat.cast_zero] at integrable integral
    rw [origin.2, Rat.cast_zero, sub_zero] at integral
    exact ⟨integrable, integral⟩

/-- The table of a list of changes has at each key the rate in force, and converts the key to the
integral of the rate in force from zero on. Its rows begin at the origin, their keys ascend, and no
row repeats the rate before it. -/
theorem ofChanges_accumulates (changes : List (RateChange ℚ)) (default : ℚ) :
    let table := ofChanges changes default
    (∀ key, table.rateAt key = rateInForce changes default key) ∧
      (∀ key : ℚ,
        IntervalIntegrable (fun x : ℝ => (rateInForce changes default x : ℝ)) volume 0 key ∧
          ∫ x in (0 : ℝ)..key, (rateInForce changes default x : ℝ) = table.forward key) ∧
      (table.first.key = 0 ∧ table.first.value = 0) ∧
      (table.rows.Pairwise fun row next => row.key < next.key) ∧
      table.rows.IsChain fun row next => row.rate ≠ next.rate :=
  ⟨rateAt_ofChanges changes default, integral_rateInForce changes default, ⟨rfl, rfl⟩,
    keys_ofChanges changes default, isChain_rate_ofChanges changes default⟩

/-! ## Between changes -/

/-- The rate in force lasts as long as no further change is reached. -/
theorem rateInForce_of_none_between {K : Type} [Field K] [LinearOrder K] [IsStrictOrderedRing K]
    {changes : List (RateChange ℚ)} {default a : ℚ} {x : K} (le : (a : K) ≤ x)
    (none : ∀ change ∈ changes, change.key ≤ a ∨ x < change.key) :
    rateInForce changes default x = rateInForce changes default a := by
  have reached : RateChange.reached changes x = RateChange.reached changes a := by
    refine List.filter_congr fun change mem => ?_
    have here : (change.key : K) ≤ x ↔ change.key ≤ a :=
      ⟨fun h => (none change mem).resolve_right (not_lt.mpr h),
        fun h => (Rat.cast_le.mpr h).trans le⟩
    simp only [le_max_iff, here, Rat.cast_nonpos, Rat.cast_id]
  unfold rateInForce
  rw [reached]

/-- From one key up to another, the value grows by the rate at the first if no change stands in
between. -/
theorem forward_of_none_between {changes : List (RateChange ℚ)} {default a b : ℚ} (le : a ≤ b)
    (none : ∀ change ∈ changes, change.key ≤ a ∨ b ≤ change.key) :
    (ofChanges changes default).forward b =
      (ofChanges changes default).forward a + (b - a) * (ofChanges changes default).rateAt a := by
  obtain ⟨before, to_a⟩ := integral_rateInForce changes default a
  obtain ⟨-, to_b⟩ := integral_rateInForce changes default b
  have constant (x : ℝ) (after : (a : ℝ) < x) (lt : x < b) :
      rateInForce changes default x = rateInForce changes default a :=
    rateInForce_of_none_between after.le fun change mem =>
      (none change mem).imp_right fun h => lt.trans_le (Rat.cast_le.mpr h)
  obtain ⟨between, grows⟩ := integral_of_constant (Rat.cast_le.mpr le) constant
  have sum := intervalIntegral.integral_add_adjacent_intervals before between
  rw [to_a, to_b, grows] at sum
  rw [rateAt_ofChanges]
  exact_mod_cast sum.symm

end RateTable

end CueCheck
