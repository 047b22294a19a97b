import CueCheck.Proofs.Sorting
import Mathlib.Algebra.Order.Ring.Rat
import Mathlib.Data.List.Sort

/-!
# The tolerance and the windowed lookup over exact rationals

- **The relation**: `almostEqual` is reflexive (`almostEqual_self`) and symmetric
  (`almostEqual_comm`), and what lies between two equal times is equal to them
  (`almostEqual_of_between`).
- **Reports**: a time of `sortedTimes` was in the list (`mem_of_mem_sortedTimes`), each time of the
  list is equal to a reported one up to tolerance (`exists_mem_sortedTimes`), and the order of the
  list does not matter (`sortedTimes_perm`).
- **The window**: a time equal to `v` up to tolerance lies within `searchRadius v` of it
  (`within_searchRadius`), so the two bisections of an ascending list cut off no match.
- **Places and entries** (`eq_findIdxs`, `filterMap_getElem?_eq_filter`, `not_isEmpty_eq_any`):
  places in ascending order are those that a scan finds, taking entries by them is the same as
  filtering, and there are some if an entry passes the test.
- **The lookup**: `matching` gives exactly the places whose times equal the value up to tolerance
  (`mem_matching`), as a scan of the whole list does (`matching_eq_findIdxs`); it is empty iff there
  are none (`matching_isEmpty_eq_false_iff`).
-/

namespace CueCheck

open Scalar (less)

/-! ## The relation -/

theorem almostEqual_iff {a b : Rat} :
    almostEqual a b = true ↔ (a - b).abs * 4096 ≤ a.abs + b.abs := by
  unfold almostEqual
  rw [decide_eq_true_iff]
  exact Iff.rfl

/-- The magnitude of a rational, by its sign. -/
theorem abs_eq_or (q : Rat) : (0 ≤ q ∧ q.abs = q) ∨ (q ≤ 0 ∧ q.abs = -q) := by
  rcases Rat.le_total (a := 0) (b := q) with h | h
  · exact .inl ⟨h, Rat.abs_of_nonneg h⟩
  · exact .inr ⟨h, Rat.abs_of_nonpos h⟩

@[simp] theorem almostEqual_self (a : Rat) : almostEqual a a = true := by
  rw [almostEqual_iff, Rat.sub_self, Rat.abs_zero]
  have := Rat.abs_nonneg (x := a)
  grind

theorem almostEqual_comm (a b : Rat) : almostEqual a b = almostEqual b a := by
  rw [Bool.eq_iff_iff, almostEqual_iff, almostEqual_iff, Rat.abs_sub_comm, Rat.add_comm]

/-- What lies between two times equal up to tolerance is equal to them. -/
theorem almostEqual_of_between {a b c : Rat} (hab : a ≤ b) (hbc : b ≤ c)
    (h : almostEqual a c = true) : almostEqual a b = true := by
  rw [almostEqual_iff] at h ⊢
  rw [Rat.abs_of_nonpos (by grind : a - b ≤ 0)]
  rw [Rat.abs_of_nonpos (by grind : a - c ≤ 0)] at h
  rcases abs_eq_or b with ⟨hb, eb⟩ | ⟨hb, eb⟩ <;> rcases abs_eq_or c with ⟨hc, ec⟩ | ⟨hc, ec⟩ <;>
    grind

theorem less_iff {a b : Rat} : less a b = true ↔ a < b := by
  unfold less
  exact decide_eq_true_iff

theorem less_eq_false_iff {a b : Rat} : less a b = false ↔ b ≤ a := by
  rw [← Bool.not_eq_true, less_iff, Rat.not_lt]

/-! ## Sorted times -/

section Sorted

variable {α : Type} [Scalar α]

@[simp] theorem mem_ascending {times : List α} {t : α} : t ∈ ascending times ↔ t ∈ times :=
  mem_sortBy

@[simp] theorem sortedTimes_nil : sortedTimes ([] : List α) = [] := by
  unfold sortedTimes ascending sortBy
  rw [List.mergeSort_nil]
  rfl

theorem mem_of_mem_sortedTimes {times : List α} {t : α} (h : t ∈ sortedTimes times) : t ∈ times :=
  mem_ascending.mp (mem_of_mem_collapseBy h)

end Sorted

theorem sortsByKey_less {β : Type} (key : β → Rat) (xs : List β) :
    SortsByKey (fun a b => less (key a) (key b)) key xs := by
  intro a _ b _
  rfl

theorem pairwise_ascending (times : List Rat) : (ascending times).Pairwise (· ≤ ·) :=
  pairwise_sortBy (sortsByKey_less id times)

/-- Sorted times do not depend on the order in which they come. -/
theorem sortedTimes_perm {xs ys : List Rat} (hp : xs.Perm ys) :
    sortedTimes xs = sortedTimes ys := by
  have h := map_key_sortBy_of_perm (hp.map id) (sortsByKey_less id xs) (sortsByKey_less id ys)
  rw [List.map_id, List.map_id] at h
  unfold sortedTimes ascending
  exact congrArg _ h

theorem exists_mem_sortedTimes {times : List Rat} {t : Rat} (h : t ∈ times) :
    ∃ u ∈ sortedTimes times, almostEqual u t = true :=
  exists_mem_collapseBy (fun b _ => almostEqual_self b) (mem_ascending.mpr h)

/-! ## The window -/

theorem searchRadius_eq (v : Rat) :
    searchRadius v = 2 * v.abs / 4095 + 2 * v.abs / 4095 * (1 / 1000000000) := rfl

/-- The distance of two times equal up to tolerance is at most `2 |v| / 4095`. -/
theorem within_searchRadius {t v : Rat} (h : almostEqual t v = true) :
    v - searchRadius v ≤ t ∧ t ≤ v + searchRadius v := by
  rw [almostEqual_iff] at h
  rw [searchRadius_eq]
  rcases abs_eq_or v with ⟨hv, ev⟩ | ⟨hv, ev⟩ <;> rcases abs_eq_or t with ⟨ht, et⟩ | ⟨ht, et⟩ <;>
    rcases abs_eq_or (t - v) with ⟨hd, ed⟩ | ⟨hd, ed⟩ <;> grind

/-- Where a test passes on a first part of a list only, the search finds where that part ends. -/
theorem lt_partitionPoint_iff {β : Type} {xs : List β} (test : β → Bool) {before : Nat → Bool}
    (hb : ∀ i y, xs[i]? = some y → before i = test y)
    (h : xs.Pairwise fun a b => test b = true → test a = true) {i : Nat} {y : β}
    (hy : xs[i]? = some y) : i < partitionPoint before 0 xs.length ↔ test y = true := by
  obtain ⟨hi, -⟩ := List.getElem?_eq_some_iff.mp hy
  have turns : ∀ i j, 0 ≤ i → i ≤ j → j < xs.length → before j = true → before i = true := by
    intro i j _ hij hj ht
    have hi := Nat.lt_of_le_of_lt hij hj
    rw [hb j _ (List.getElem?_eq_getElem hj)] at ht
    rw [hb i _ (List.getElem?_eq_getElem hi)]
    rcases Nat.lt_or_eq_of_le hij with hlt | rfl
    · exact List.pairwise_iff_getElem.mp h i j hi hj hlt ht
    · exact ht
  obtain ⟨below, above⟩ := partitionPoint_spec (Nat.zero_le xs.length) turns
  rw [← hb i y hy]
  constructor
  · exact below i (Nat.zero_le i)
  · intro ht
    apply Nat.lt_of_not_le
    intro hle
    rw [above i hle hi] at ht
    cases ht

theorem lt_countBelow_iff {times : List Rat} (h : times.Pairwise (· ≤ ·)) {x t : Rat} {i : Nat}
    (ht : times[i]? = some t) : i < countBelow less times x ↔ t < x := by
  unfold countBelow
  rw [lt_partitionPoint_iff (less · x) (fun i y hy => by simp only [hy])
    (h.imp fun hab hb => ?_) ht, less_iff]
  rw [less_iff] at hb ⊢
  exact Std.lt_of_le_of_lt hab hb

theorem lt_countUpTo_iff {times : List Rat} (h : times.Pairwise (· ≤ ·)) {x t : Rat} {i : Nat}
    (ht : times[i]? = some t) : i < countUpTo less times x ↔ t ≤ x := by
  unfold countUpTo
  rw [lt_partitionPoint_iff (fun y => !less x y) (fun i y hy => by simp only [hy])
    (h.imp fun hab hb => ?_) ht, Bool.not_eq_true', less_eq_false_iff]
  rw [Bool.not_eq_true', less_eq_false_iff] at hb ⊢
  exact Rat.le_trans hab hb

/-! ## The lookup -/

section Places

/-- Places in ascending order are found by a scan if they are the places where its test passes. -/
theorem eq_findIdxs {β : Type} {xs : List β} {places : List Nat} {test : β → Bool}
    (ordered : places.Pairwise (· < ·))
    (h : ∀ i, i ∈ places ↔ ∃ x, xs[i]? = some x ∧ test x = true) : places = xs.findIdxs test := by
  refine ordered.eq_of_mem_iff List.pairwise_findIdxs fun i => ?_
  rw [h, List.mem_findIdxs_iff_exists_getElem_pos]
  constructor
  · rintro ⟨x, hx, ht⟩
    obtain ⟨hi, rfl⟩ := List.getElem?_eq_some_iff.mp hx
    exact ⟨hi, ht⟩
  · rintro ⟨hi, ht⟩
    exact ⟨xs[i], List.getElem?_eq_getElem hi, ht⟩

theorem filterMap_findIdxs {β : Type} (xs : List β) (test : β → Bool) :
    (xs.findIdxs test).filterMap (xs[·]?) = xs.filter test := by
  induction xs with
  | nil => rfl
  | cons x xs ih =>
    have later : ((xs.findIdxs test).map (· + 1)).filterMap ((x :: xs)[·]?) = xs.filter test := by
      rw [List.filterMap_map]
      exact ih
    rw [List.findIdxs_cons, List.findIdxs_start, List.filter_cons]
    split
    · rw [List.filterMap_cons_some (by rfl), later]
    · exact later

/-- The entries at the places where a test passes are those that pass it. -/
theorem filterMap_getElem?_eq_filter {β : Type} {xs : List β} {places : List Nat} {test : β → Bool}
    (ordered : places.Pairwise (· < ·))
    (h : ∀ i, i ∈ places ↔ ∃ x, xs[i]? = some x ∧ test x = true) :
    places.filterMap (xs[·]?) = xs.filter test := by
  rw [eq_findIdxs ordered h, filterMap_findIdxs]

/-- There is a place if some entry passes the test. -/
theorem not_isEmpty_eq_any {β : Type} {xs : List β} {places : List Nat} {test : β → Bool}
    (h : ∀ i, i ∈ places ↔ ∃ x, xs[i]? = some x ∧ test x = true) :
    (!places.isEmpty) = xs.any test := by
  rw [Bool.eq_iff_iff, Bool.not_eq_true', List.isEmpty_eq_false_iff_exists_mem, List.any_eq_true]
  constructor
  · rintro ⟨i, hi⟩
    obtain ⟨x, hx, ht⟩ := (h i).mp hi
    exact ⟨x, List.mem_of_getElem? hx, ht⟩
  · rintro ⟨x, hx, ht⟩
    obtain ⟨i, hi⟩ := List.mem_iff_getElem?.mp hx
    exact ⟨i, (h i).mpr ⟨x, hi, ht⟩⟩

@[simp] theorem Window.mem_places {w : Window} {i : Nat} :
    i ∈ w.places ↔ w.start ≤ i ∧ i < w.stop := by
  unfold places
  rw [List.mem_range'_1]
  omega

theorem Window.pairwise_places (w : Window) : w.places.Pairwise (· < ·) :=
  List.pairwise_lt_range'

theorem ordered_matching {α : Type} [Scalar α] (times : List α) (v : α) :
    (matching times v).Pairwise (· < ·) := by
  unfold matching
  exact List.Pairwise.filter _ (Window.pairwise_places _)

end Places

/-- The lookup finds every match of an ascending list, and nothing else. -/
theorem mem_matching {times : List Rat} (h : times.Pairwise (· ≤ ·)) {v : Rat} {i : Nat} :
    i ∈ matching times v ↔ ∃ t, times[i]? = some t ∧ almostEqual t v = true := by
  unfold matching
  rw [List.mem_filter]
  constructor
  · rintro ⟨-, hi⟩
    split at hi
    · rename_i t ht
      exact ⟨t, ht, hi⟩
    · cases hi
  · rintro ⟨t, ht, ha⟩
    obtain ⟨hlo, hhi⟩ := within_searchRadius ha
    have hstart : (window times v).start ≤ i := by
      apply Nat.le_of_not_lt
      intro hlt
      exact Rat.not_lt.mpr hlo ((lt_countBelow_iff h ht).mp hlt)
    have hstop : i < (window times v).stop := (lt_countUpTo_iff h ht).mpr hhi
    exact ⟨Window.mem_places.mpr ⟨hstart, hstop⟩, by simp only [ht, ha]⟩

/-- On an ascending list the windowed lookup finds what a scan of the whole list finds, in
order. -/
theorem matching_eq_findIdxs {times : List Rat} (h : times.Pairwise (· ≤ ·)) (v : Rat) :
    matching times v = times.findIdxs fun t => almostEqual t v :=
  eq_findIdxs (ordered_matching times v) fun _ => mem_matching h

/-- Times of either sign, with repeats: all that are within one of 4096 match it, and no other. -/
theorem matching_eq_findIdxs_repeats :
    [-4096, -1, 0, 0, 4094, 4095, 4096, 4096, 4097, (4099 : Rat)].Pairwise (· ≤ ·) ∧
      matching [-4096, -1, 0, 0, 4094, 4095, 4096, 4096, 4097, (4099 : Rat)] 4096 = [5, 6, 7, 8] :=
  ⟨by decide +kernel, (matching_eq_findIdxs (by decide +kernel) _).trans (by decide +kernel)⟩

theorem matching_isEmpty_eq_false_iff {times : List Rat} (h : times.Pairwise (· ≤ ·)) {v : Rat} :
    (matching times v).isEmpty = false ↔ ∃ t ∈ times, almostEqual t v = true := by
  rw [← Bool.not_eq_true', not_isEmpty_eq_any fun _ => mem_matching h, List.any_eq_true]

end CueCheck
