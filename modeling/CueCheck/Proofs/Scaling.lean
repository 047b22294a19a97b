import CueCheck.Beat.Check
import CueCheck.Proofs.Tolerance
import Mathlib.Algebra.Order.Field.Rat
import Mathlib.Tactic.Ring

/-!
# Times in another unit

Over exact rationals, measuring all times in another unit multiplies them by a positive factor `c`.
Nothing that is asked about times depends on the unit.

- **Comparison** (`less_scale`, `beq_scale`, `almostEqual_scale`): scaled times compare as the times
  do.
- **Lists** (`sortBy_map`, `collapseBy_map`, `sortedTimes_scale`): where an order or a sameness does
  not see a change of the entries, sorting and collapsing commute with it.
- **Lookup** (`matching_scale`, `isIn_scale`): the window grows with the value looked up, so the
  same places are found.
-/

namespace CueCheck

open Scalar (less)

/-! ## Changing the entries of a list -/

section Map

variable {β γ : Type} {f : β → γ}

/-- What is read off changed entries is what was read off them, changed. -/
theorem map_map_comm {δ ε : Type} {key : β → δ} {key' : γ → ε} {g : δ → ε}
    (h : ∀ a, key' (f a) = g (key a)) (xs : List β) : (xs.map f).map key' = (xs.map key).map g := by
  rw [List.map_map, List.map_map]
  exact List.map_congr_left fun a _ => h a

/-- Sorting commutes with a change of the entries that the order does not see. -/
theorem sortBy_map {lt : β → β → Bool} {lt' : γ → γ → Bool} (h : ∀ a b, lt' (f a) (f b) = lt a b)
    (xs : List β) : sortBy lt' (xs.map f) = (sortBy lt xs).map f := by
  unfold sortBy
  refine (List.map_mergeSort fun a _ b _ => ?_).symm
  rw [h]

/-- So does collapsing, where sameness does not see it. -/
theorem collapseBy_map {same : β → β → Bool} {same' : γ → γ → Bool}
    (h : ∀ a b, same' (f a) (f b) = same a b) (xs : List β) :
    collapseBy same' (xs.map f) = (collapseBy same xs).map f := by
  have related : List.Forall₂ (fun a b => f a = b) xs (xs.map f) := by
    rw [List.forall₂_map_right_iff, List.forall₂_same]
    exact fun _ _ => rfl
  have kept :
      List.Forall₂ (fun a b => f a = b) (collapseBy same xs) (collapseBy same' (xs.map f)) :=
    forall₂_collapseBy (fun a b _ _ ha hb => by rw [← ha, ← hb, h]) related
  rw [← List.forall₂_map_left_iff, List.forall₂_eq_eq_eq] at kept
  exact kept.symm

end Map

variable {c : Rat}

/-! ## Comparison -/

theorem less_scale (hc : 0 < c) (a b : Rat) : less (c * a) (c * b) = less a b := by
  rw [Bool.eq_iff_iff, less_iff, less_iff]
  exact mul_lt_mul_iff_right₀ hc

theorem zero_less_scale (hc : 0 < c) (a : Rat) : less Scalar.zero (c * a) = less Scalar.zero a := by
  have h : less (c * 0) (c * a) = less 0 a := less_scale hc 0 a
  rwa [mul_zero] at h

theorem beq_scale (hc : 0 < c) (a b : Rat) : (c * a == c * b) = (a == b) := by
  rw [Bool.eq_iff_iff, beq_iff_eq, beq_iff_eq]
  exact mul_right_inj' hc.ne'

theorem abs_scale (hc : 0 < c) (a : Rat) : (c * a).abs = c * a.abs := by
  rcases abs_eq_or a with ⟨ha, e⟩ | ⟨ha, e⟩
  · rw [e, Rat.abs_of_nonneg (mul_nonneg hc.le ha)]
  · rw [e, Rat.abs_of_nonpos (mul_nonpos_of_nonneg_of_nonpos hc.le ha), mul_neg]

theorem almostEqual_scale (hc : 0 < c) (a b : Rat) :
    almostEqual (c * a) (c * b) = almostEqual a b := by
  rw [Bool.eq_iff_iff, almostEqual_iff, almostEqual_iff, ← mul_sub, abs_scale hc, abs_scale hc,
    abs_scale hc, ← mul_add, mul_assoc]
  exact mul_le_mul_iff_right₀ hc

theorem ascending_scale (hc : 0 < c) (times : List Rat) :
    ascending (times.map (c * ·)) = (ascending times).map (c * ·) :=
  sortBy_map (less_scale hc) times

theorem sortedTimes_scale (hc : 0 < c) (times : List Rat) :
    sortedTimes (times.map (c * ·)) = (sortedTimes times).map (c * ·) := by
  unfold sortedTimes
  rw [ascending_scale hc, collapseBy_map (almostEqual_scale hc)]

/-! ## Lookup -/

theorem searchRadius_scale (hc : 0 < c) (v : Rat) : searchRadius (c * v) = c * searchRadius v := by
  rw [searchRadius_eq, searchRadius_eq, abs_scale hc]
  ring

theorem countBelow_scale (hc : 0 < c) (times : List Rat) (v : Rat) :
    countBelow less (times.map (c * ·)) (c * v) = countBelow less times v := by
  unfold countBelow
  rw [List.length_map]
  congr 1
  funext i
  rw [List.getElem?_map]
  cases times[i]? with
  | none => rfl
  | some t => exact less_scale hc t v

theorem countUpTo_scale (hc : 0 < c) (times : List Rat) (v : Rat) :
    countUpTo less (times.map (c * ·)) (c * v) = countUpTo less times v := by
  unfold countUpTo
  rw [List.length_map]
  congr 1
  funext i
  rw [List.getElem?_map]
  cases times[i]? with
  | none => rfl
  | some t => exact congrArg (!·) (less_scale hc v t)

theorem window_scale (hc : 0 < c) (times : List Rat) (v : Rat) :
    window (times.map (c * ·)) (c * v) = window times v := by
  unfold window
  rw [searchRadius_scale hc]
  congr 1
  · exact (congrArg _ (mul_sub c v _).symm).trans (countBelow_scale hc times _)
  · exact (congrArg _ (mul_add c v _).symm).trans (countUpTo_scale hc times _)

/-- The same places are found in another unit. -/
theorem matching_scale (hc : 0 < c) (times : List Rat) (v : Rat) :
    matching (times.map (c * ·)) (c * v) = matching times v := by
  unfold matching
  rw [window_scale hc]
  refine List.filter_congr fun i _ => ?_
  rw [List.getElem?_map]
  cases times[i]? with
  | none => rfl
  | some t => exact almostEqual_scale hc t v

theorem isIn_scale (hc : 0 < c) (times : List Rat) (t : Rat) :
    isIn (times.map (c * ·)) (c * t) = isIn times t := by
  unfold isIn
  rw [matching_scale hc]

end CueCheck
