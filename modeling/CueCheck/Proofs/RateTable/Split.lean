import CueCheck.Proofs.RateTable.InForce
import CueCheck.Proofs.RateTable.Inversion
import CueCheck.Scalar.Division
import Mathlib

/-!
# Splitting at whole keys

Over exact rationals, a table whose rows begin at whole keys splits a value into the floor of its
key and what the value has beyond it.

- **Division** (`divMod?_rat`): a positive divisor goes into a number as often as the floor of the
  quotient says.
- **Rows** (`rowByKey_floor`): no row begins between a key and its floor.
- **Splitting** (`split_eq`, `rest_bounds`): the key is the floor, and the rest is less than the
  rate in force. So it is in the table of a list of changes (`ofChanges_split`).
-/

namespace CueCheck

open Scalar

/-! ## Division -/

theorem cutToInt_intCast (n : ℤ) : cutToInt n = n := by
  simp [cutToInt]

/-- Cutting the fraction off rounds towards zero: down where that is not above, else up. -/
theorem floor_eq_cutToInt (q : ℚ) :
    ⌊q⌋ = if (cutToInt q : ℚ) ≤ q then cutToInt q else cutToInt q - 1 := by
  have nonneg {q : ℚ} (h : 0 ≤ q) : cutToInt q = ⌊q⌋ := by
    unfold cutToInt
    rw [Int.tdiv_eq_ediv_of_nonneg (Rat.num_nonneg.mpr h)]
    exact (Rat.floor_def q).symm
  rcases le_total 0 q with h | h
  · rw [nonneg h, if_pos (Int.floor_le q)]
  · have opposite : cutToInt (-q) = -cutToInt q := by
      simp [cutToInt, Int.neg_tdiv]
    have up : cutToInt q = ⌈q⌉ := by
      have := nonneg (neg_nonneg.mpr h)
      rw [opposite, Int.floor_neg] at this
      exact neg_injective this
    rw [up]
    split
    · rename_i whole
      rw [Int.floor_eq_iff]
      exact ⟨whole, (Int.le_ceil q).trans_lt (lt_add_one _)⟩
    · rename_i rest
      rw [Int.floor_eq_iff]
      push_cast
      exact ⟨by linarith [Int.ceil_lt_add_one q], by linarith [not_le.mp rest]⟩

theorem zeroLike_rat (x : ℚ) : zeroLike x = 0 := by
  unfold zeroLike
  split
  · exact neg_zero
  · rfl

theorem wholeQuotient_intCast (n : ℤ) : wholeQuotient (n : ℚ) = n := by
  have floor : Scalar.floor (n : ℚ) = n := congrArg Int.cast (Rat.floor_intCast n)
  have below : ¬(ofInt 1 / ofInt 2 : ℚ) < n - n := by
    rw [sub_self]
    decide +kernel
  unfold wholeQuotient
  simp only [floor, if_neg below]

/-- A positive divisor goes into a number as often as the floor of the quotient says. -/
theorem divMod?_rat {x y : ℚ} (h : 0 < y) :
    divMod? x y = some ((⌊x / y⌋ : ℚ), x - ⌊x / y⌋ * y) := by
  have cut : remainder x y = x - y * cutToInt (x / y) := rfl
  have quotient : (x - remainder x y) / y = cutToInt (x / y) := by
    rw [cut]
    field_simp
    ring
  have positive : ¬(y == zero) = true := fun e => h.ne' (eq_of_beq e)
  have sign : decide (y < zero) = false := decide_eq_false (not_lt.mpr h.le)
  have le_iff : (cutToInt (x / y) : ℚ) ≤ x / y ↔ 0 ≤ remainder x y := by
    rw [cut, le_div_iff₀ h, sub_nonneg, mul_comm]
  have whole (n : ℤ) :
      (if ((n : ℚ) == zero) = true then zeroLike (x / y) else wholeQuotient (n : ℚ)) = n := by
    rw [wholeQuotient_intCast, zeroLike_rat, ite_eq_right_iff]
    exact fun e => (eq_of_beq e).symm
  unfold divMod?
  rw [if_neg positive]
  simp only [quotient, sign]
  by_cases even : (remainder x y == zero) = true
  · have none : remainder x y = 0 := eq_of_beq even
    rw [if_pos even, whole, zeroLike_rat, floor_eq_cutToInt, if_pos (le_iff.mpr none.ge), ← none,
      cut, mul_comm]
  rw [if_neg even]
  by_cases below : remainder x y < zero
  · -- What is left over lies below zero: the quotient was cut one too high.
    have floor : ⌊x / y⌋ = cutToInt (x / y) - 1 := by
      rw [floor_eq_cutToInt, if_neg (mt le_iff.mp (not_le.mpr below))]
    have back := whole (cutToInt (x / y) - 1)
    push_cast at back
    simp only [decide_eq_true below, Bool.false_bne, if_true, floor]
    push_cast
    refine congrArg some (Prod.ext back ?_)
    rw [cut]
    ring
  · have floor : ⌊x / y⌋ = cutToInt (x / y) := by
      rw [floor_eq_cutToInt, if_pos (le_iff.mpr (not_lt.mp below))]
    simp only [decide_eq_false below, bne_self_eq_false, Bool.false_eq_true, if_false, whole, floor]
    rw [cut, mul_comm]

/-! ## Rows -/

namespace RateTable

/-- Every row of a table begins at a whole key. -/
def HasWholeKeys (table : RateTable ℚ) : Prop :=
  ∀ row ∈ table.rows, ∃ n : ℤ, row.key = n

theorem hasWholeKeys_ofChanges {changes : List (RateChange ℚ)}
    (whole : ∀ change ∈ changes, ∃ n : ℤ, change.key = n) (default : ℚ) :
    (ofChanges changes default).HasWholeKeys := by
  intro row mem
  have listed : row.change ∈ ⟨0, default⟩ :: changes.filter RateChange.isValid :=
    (RateSchedule.mem_entries_ofChanges_iff.mp (change_mem_entries mem)).mem
  rcases List.mem_cons.mp listed with start | listed
  · exact ⟨0, congrArg RateChange.key start⟩
  · exact whole row.change (List.mem_filter.mp listed).1

theorem lastRow_floor {key : ℚ} {row : Breakpoint ℚ} {later : List (Breakpoint ℚ)}
    (whole : ∀ next ∈ later, ∃ n : ℤ, next.key = n) :
    lastRow ⌊key⌋ row later = lastRow key row later := by
  induction later generalizing row with
  | nil => rfl
  | cons next later ih =>
    obtain ⟨⟨n, hn⟩, whole⟩ := List.forall_mem_cons.mp whole
    have same : next.key ≤ (⌊key⌋ : ℚ) ↔ next.key ≤ key := by
      rw [hn, Int.cast_le, Int.le_floor]
    simp only [lastRow, same, ih whole]

theorem rowByKey_floor {table : RateTable ℚ} (h : table.IsAscending) (whole : table.HasWholeKeys)
    (key : ℚ) : table.rowByKey ⌊key⌋ = table.rowByKey key := by
  rw [rowByKey_eq_lastRow h.keys, rowByKey_eq_lastRow h.keys,
    lastRow_floor fun next mem => whole next (List.mem_cons_of_mem _ mem)]

/-! ## Splitting -/

section Split

variable {table : RateTable ℚ}

theorem forward_floor (h : table.IsAscending) (whole : table.HasWholeKeys) (key : ℚ) :
    table.forward key - table.forward ⌊key⌋ = Int.fract key * (table.rowByKey key).rate := by
  unfold forward
  simp only [rowByKey_floor h whole]
  show _ + (key - _) * _ - (_ + ((⌊key⌋ : ℚ) - _) * _) = _
  rw [Int.fract]
  ring

theorem split_forward (h : table.IsContinuous) (whole : table.HasWholeKeys) (key : ℚ) :
    table.split (table.forward key) = .ok (⌊key⌋, table.forward key - table.forward ⌊key⌋) := by
  have mem := rowByKey_mem h.toIsAscending key
  obtain ⟨n, first⟩ := whole _ mem
  have rate := h.rates _ mem
  have wholes : (table.forward key - (table.rowByKey key).value) / (table.rowByKey key).rate =
      key - n := by
    rw [← first, div_eq_iff rate.ne']
    exact add_sub_cancel_left _ _
  have rest : table.forward key - (table.rowByKey key).value -
      (⌊key⌋ - n) * (table.rowByKey key).rate = table.forward key - table.forward ⌊key⌋ := by
    rw [forward_floor h.toIsAscending whole, Int.fract, ← first]
    show _ + (key - _) * _ - _ - _ = _
    ring
  have truncated : truncate ((n : ℚ) + (⌊key⌋ - n)) = .ok ⌊key⌋ := by
    rw [add_sub_cancel]
    exact congrArg Except.ok (cutToInt_intCast _)
  unfold split
  simp only [rowByValue_forward h, divMod?_rat rate, wholes, Int.floor_sub_intCast, first]
  push_cast
  rw [rest]
  simp only [truncated]

/-- A value splits into the floor of its key and the rest beyond the value of that. -/
theorem split_eq (h : table.IsContinuous) (whole : table.HasWholeKeys) (value : ℚ) :
    table.split value =
      .ok (⌊table.inverse value⌋, value - table.forward ⌊table.inverse value⌋) := by
  have split := split_forward h whole (table.inverse value)
  rwa [forward_inverse h] at split

/-- The rest is less than the rate in force. -/
theorem rest_bounds (h : table.IsContinuous) (whole : table.HasWholeKeys) (value : ℚ) :
    0 ≤ value - table.forward ⌊table.inverse value⌋ ∧
      value - table.forward ⌊table.inverse value⌋ < table.rateAt ⌊table.inverse value⌋ := by
  have rest := forward_floor h.toIsAscending whole (table.inverse value)
  have rate := h.rates _ (rowByKey_mem h.toIsAscending (table.inverse value))
  rw [forward_inverse h] at rest
  rw [rest, rateAt, rowByKey_floor h.toIsAscending whole]
  exact ⟨mul_nonneg (Int.fract_nonneg _) rate.le,
    mul_lt_of_lt_one_left rate (Int.fract_lt_one _)⟩

end Split

/-- In the table of changes at whole keys over a positive default, every value, whatever its sign,
splits into the floor of its key and a rest that is less than the rate in force there; together they
give the value back. -/
theorem ofChanges_split {changes : List (RateChange ℚ)} {default : ℚ}
    (whole : ∀ change ∈ changes, ∃ n : ℤ, change.key = n) (positive : 0 < default) (value : ℚ) :
    let table := ofChanges changes default
    ∃ rest, table.split value = .ok (⌊table.inverse value⌋, rest) ∧
      0 ≤ rest ∧ rest < table.rateAt ⌊table.inverse value⌋ ∧
      table.forward ⌊table.inverse value⌋ + rest = value := by
  intro table
  have continuous : table.IsContinuous := isContinuous_ofChanges changes positive
  have wholeKeys : table.HasWholeKeys := hasWholeKeys_ofChanges whole default
  obtain ⟨nonneg, less⟩ := rest_bounds continuous wholeKeys value
  exact ⟨_, split_eq continuous wholeKeys value, nonneg, less, add_sub_cancel _ _⟩

/-- Bars of eight beats, from the third on of half a beat, which the fourth repeats, and from the
fifth on of three: a value before the first bar, and one on the line before the fifth. -/
theorem ofChanges_split_bars :
    let changes : List (RateChange ℚ) := [⟨4, 3⟩, ⟨2, 1 / 2⟩, ⟨3, 1 / 2⟩]
    let table := ofChanges changes 8
    (∀ change ∈ changes, ∃ n : ℤ, change.key = n) ∧ (0 : ℚ) < 8 ∧
      (∃ rest, table.split (-7) = .ok (-1, rest) ∧ 0 ≤ rest ∧ rest < table.rateAt (-1 : ℤ) ∧
        table.forward (-1 : ℤ) + rest = -7) ∧
      ∃ rest, table.split 17 = .ok (4, rest) ∧ 0 ≤ rest ∧ rest < table.rateAt (4 : ℤ) ∧
        table.forward (4 : ℤ) + rest = 17 := by
  intro changes table
  have whole : ∀ change ∈ changes, ∃ n : ℤ, change.key = n := by
    simp only [changes, List.forall_mem_cons]
    exact ⟨⟨4, rfl⟩, ⟨2, rfl⟩, ⟨3, rfl⟩, nofun⟩
  have positive : (0 : ℚ) < 8 := by norm_num
  have keys : ⌊table.inverse (-7)⌋ = -1 ∧ ⌊table.inverse 17⌋ = 4 := by
    simp only [table, changes, ofChanges, ofSchedule, sortBy_eq_sorted]
    decide +kernel
  refine ⟨whole, positive, ?_, ?_⟩
  · rw [← keys.1]
    exact ofChanges_split whole positive (-7)
  · rw [← keys.2]
    exact ofChanges_split whole positive 17

end RateTable

end CueCheck
