import CueCheck.Proofs.Tolerance
import Mathlib.Data.List.Sort
import Mathlib.Order.Interval.Set.OrdConnected

/-!
# The tolerance is convex

Equality up to tolerance is not transitive and gets wider with the magnitude of both times, across
zero too. What lets neighbours stand for all later entries of a sorted list is that it is convex:
what lies between two equal times is equal to both. Over exact rationals:

- **Between two times** (`almostEqual_of_between`, `almostEqual_of_between_right`): the first is
  equal to what lies between, and so is the second, as on the other side of zero the two change
  roles (`almostEqual_neg`).
- **Around a time** (`ordConnected_almostEqual`): so the times equal to it are an interval.
- **Places** (`exists_window`): in an ascending list, the places of an interval are a window, and
  ascending places without gaps are one (`exists_places_eq`).
- **The result** (`almostEqual_convex`): the lookup of a time finds a window of places, and each
  place of that time is in it.
-/

namespace CueCheck

/-! ## Between two times -/

/-- Times are compared alike on both sides of zero. -/
theorem almostEqual_neg (a b : ℚ) : almostEqual (-a) (-b) = almostEqual a b := by
  have distance : (-a - -b).abs = (a - b).abs := by
    rw [neg_sub_neg, Rat.abs_sub_comm]
  rw [Bool.eq_iff_iff, almostEqual_iff, almostEqual_iff, distance, Rat.abs_neg, Rat.abs_neg]

/-- What lies between two times equal up to tolerance is equal to the second, too. -/
theorem almostEqual_of_between_right {a b c : ℚ} (hab : a ≤ b) (hbc : b ≤ c)
    (h : almostEqual a c = true) : almostEqual b c = true := by
  -- Beyond zero the second of the two comes first.
  rw [almostEqual_comm, ← almostEqual_neg] at h ⊢
  exact almostEqual_of_between (neg_le_neg hbc) (neg_le_neg hab) h

/-- The times equal to a time up to tolerance are an interval. -/
theorem ordConnected_almostEqual (v : ℚ) : {t | almostEqual t v = true}.OrdConnected := by
  apply Set.ordConnected_of_uIcc_subset_left (x := v)
  intro t (ht : almostEqual t v = true) b hb
  show almostEqual b v = true
  rcases Set.mem_uIcc.mp hb with ⟨hvb, hbt⟩ | ⟨htb, hbv⟩
  · rw [almostEqual_comm] at ht ⊢
    exact almostEqual_of_between hvb hbt ht
  · exact almostEqual_of_between_right htb hbv ht

/-! ## Places -/

/-- Ascending places without gaps are a window. -/
theorem exists_places_eq {places : List ℕ} (ordered : places.Pairwise (· < ·))
    (gapless : {i | i ∈ places}.OrdConnected) : ∃ w : Window, places = w.places := by
  cases places with
  | nil => exact ⟨⟨0, 0⟩, rfl⟩
  | cons first later =>
    have weakly : (first :: later).Pairwise (· ≤ ·) := ordered.imp le_of_lt
    have hlast := List.getLast_mem (List.cons_ne_nil first later)
    refine ⟨⟨first, (first :: later).getLast (List.cons_ne_nil _ _) + 1⟩,
      ordered.eq_of_mem_iff (Window.pairwise_places _) fun i => ?_⟩
    rw [Window.mem_places, Nat.lt_succ_iff]
    constructor
    · exact fun hi => ⟨weakly.rel_head hi, weakly.rel_getLast hi⟩
    · exact fun hi => gapless.out List.mem_cons_self hlast hi

/-- In an ascending list, the places of an interval are a window. -/
theorem exists_window {K : Type} [LinearOrder K] {xs : List K} {interval : Set K}
    {places : List ℕ} (ascends : xs.Pairwise (· ≤ ·)) (connected : interval.OrdConnected)
    (ordered : places.Pairwise (· < ·))
    (h : ∀ i, i ∈ places ↔ ∃ x, xs[i]? = some x ∧ x ∈ interval) :
    ∃ w : Window, places = w.places := by
  refine exists_places_eq ordered ⟨fun i hi k hk j hj => ?_⟩
  obtain ⟨x, hx, hxs⟩ := (h i).mp hi
  obtain ⟨z, hz, hzs⟩ := (h k).mp hk
  obtain ⟨_, rfl⟩ := List.getElem?_eq_some_iff.mp hx
  obtain ⟨hk, rfl⟩ := List.getElem?_eq_some_iff.mp hz
  have hjk : j < xs.length := lt_of_le_of_lt hj.2 hk
  have above : xs[i] ≤ xs[j] := ascends.sortedLE.getElem_le_getElem_of_le hj.1
  have below : xs[j] ≤ xs[k] := ascends.sortedLE.getElem_le_getElem_of_le hj.2
  exact (h j).mpr ⟨xs[j], List.getElem?_eq_getElem hjk, connected.out hxs hzs ⟨above, below⟩⟩

/-! ## The result -/

/-- Equality up to tolerance is reflexive, symmetric and convex, and what the lookup of a time in an
ascending list finds is a window of places, with each place of the time itself. -/
theorem almostEqual_convex :
    (∀ a : ℚ, almostEqual a a = true) ∧
    (∀ a b : ℚ, almostEqual a b = almostEqual b a) ∧
    (∀ a b c : ℚ, a ≤ b → b ≤ c → almostEqual a c = true →
      almostEqual a b = true ∧ almostEqual b c = true) ∧
    ∀ (times : List ℚ) (v : ℚ), times.Pairwise (· ≤ ·) →
      ∃ w : Window, matching times v = w.places ∧ ∀ i, times[i]? = some v → i ∈ w.places := by
  refine ⟨almostEqual_self, almostEqual_comm, fun a b c hab hbc h =>
    ⟨almostEqual_of_between hab hbc h, almostEqual_of_between_right hab hbc h⟩, ?_⟩
  intro times v ascends
  obtain ⟨w, hw⟩ := exists_window ascends (ordConnected_almostEqual v) (ordered_matching times v)
    fun _ => mem_matching ascends
  refine ⟨w, hw, fun i hi => ?_⟩
  rw [← hw, mem_matching ascends]
  exact ⟨v, hi, almostEqual_self v⟩

/-- Below zero, where the times found for -4096 reach down to -4098 and include both repeats. -/
theorem almostEqual_convex_below_zero :
    let times : List ℚ := [-4099, -4098, -4097, -4096, -4096, -4095, -4094, 0, 4096]
    times.Pairwise (· ≤ ·) ∧ almostEqual (-4098) (-4096 : ℚ) = true ∧
      (almostEqual (-4098) (-4097 : ℚ) = true ∧ almostEqual (-4097) (-4096 : ℚ) = true) ∧
      ∃ w : Window, matching times (-4096) = w.places ∧
        ∀ i, times[i]? = some (-4096) → i ∈ w.places := by
  intro times
  have ascends : times.Pairwise (· ≤ ·) := by decide +kernel
  have equal : almostEqual (-4098) (-4096 : ℚ) = true := by decide +kernel
  obtain ⟨-, -, between, places⟩ := almostEqual_convex
  exact ⟨ascends, equal,
    between (-4098) (-4097) (-4096) (by decide +kernel) (by decide +kernel) equal,
    places times (-4096) ascends⟩

end CueCheck
