import CueCheck.Beat.Check
import CueCheck.Proofs.Binary64
import CueCheck.Proofs.Tolerance

/-!
# The windowed lookup over binary64 numbers

Rounding makes the window of a lookup a little wider or narrower than it should be, and it may be
NaN. Still a lookup is a filter: whether an entry of an ascending list is found depends on the entry
and on the value looked up, not on the other entries.

- **NaN** (`less_of_nan`, `exact_ne_nan_of_almostEqual`): it is neither below nor above anything,
  and not equal to anything even up to tolerance.
- **Order** (`Ascending`): sorting numbers makes them ascend (`ascending_ascending`).
- **The test** (`isFound`): an entry is not outside the window and equals the value up to tolerance.
- **The lookup** (`mem_matching_iff`, `isIn_eq_any`): the entries that pass the test are found.
-/

namespace CueCheck.Binary64

open Scalar (less)

/-! ## NaN -/

theorem less_of_nan {x y : Float} (h : exact x = .nan ∨ exact y = .nan) : less x y = false := by
  have unordered : x.toModel.unpack.compare y.toModel.unpack = none := by
    rcases h with h | h
    · rw [exact_eq_nan_iff.mp h]
      rfl
    · rw [exact_eq_nan_iff.mp h]
      cases x.toModel.unpack <;> rfl
  unfold less
  rw [decide_eq_false_iff_not, lt_iff_compare, unordered]
  exact fun h => nomatch h

/-- What equals anything up to tolerance is a number. -/
theorem exact_ne_nan_of_almostEqual {x y : Float} (h : almostEqual x y = true) :
    exact x ≠ .nan := by
  intro hx
  have difference : (x - y).toModel.unpack = .notANumber := by
    show (Float.Model.pack (.sub .binary64 _ _)).unpack = _
    rw [exact_eq_nan_iff.mp hx]
    exact unpack_pack_nan
  have distance : (Scalar.abs (x - y)).toModel.unpack = .notANumber := by
    show (Float.Model.pack (x - y).toModel.unpack.abs).unpack = _
    rw [difference]
    exact unpack_pack_nan
  have scaled : (Scalar.abs (x - y) * Scalar.ofInt 4096).toModel.unpack = .notANumber := by
    show (Float.Model.pack (.mul .binary64 _ _)).unpack = _
    rw [distance]
    exact unpack_pack_nan
  unfold almostEqual at h
  rw [decide_eq_true_iff] at h
  have h : (Scalar.abs (x - y) * Scalar.ofInt 4096).toModel.unpack.le
      (Scalar.abs x + Scalar.abs y).toModel.unpack = true := of_decide_eq_true h
  rw [scaled] at h
  cases h

/-! ## The lookup -/

/-- Numbers, infinities included, in ascending order. -/
structure Ascending (times : List Float) : Prop where
  number : ∀ t ∈ times, exact t ≠ .nan
  ordered : times.Pairwise fun a b => rank a ≤ rank b

/-- Sorting by a number gives the numbers in ascending order. -/
theorem ascending_map_sortBy {β : Type} {xs : List β} {key : β → Float}
    (number : ∀ x ∈ xs, exact (key x) ≠ .nan) :
    Ascending ((sortBy (fun a b => less (key a) (key b)) xs).map key) := by
  constructor
  · intro t ht
    obtain ⟨x, hx, rfl⟩ := List.mem_map.mp ht
    exact number x (mem_sortBy.mp hx)
  · have sorts : SortsByKey (fun a b => less (key a) (key b)) (fun x => rank (key x)) xs := by
      intro a ha b hb
      exact less_eq (number a ha) (number b hb)
    rw [List.pairwise_map]
    exact pairwise_sortBy sorts

theorem ascending_ascending {times : List Float} (number : ∀ t ∈ times, exact t ≠ .nan) :
    Ascending (ascending times) := by
  have h : Ascending ((ascending times).map id) := ascending_map_sortBy number
  rwa [List.map_id] at h

/-- An entry that a lookup finds: it is not outside the window and equals the value up to
tolerance. -/
def isFound (value time : Float) : Bool :=
  !less time (value - searchRadius value) && !less (value + searchRadius value) time &&
    almostEqual time value

theorem less_of_rank_le {x y z : Float} (hx : exact x ≠ .nan) (hy : exact y ≠ .nan)
    (hxy : rank x ≤ rank y) (h : less y z = true) : less x z = true := by
  have hz : exact z ≠ .nan := by
    intro hz
    rw [less_of_nan (.inr hz)] at h
    cases h
  rw [less_eq hy hz, decide_eq_true_iff] at h
  rw [less_eq hx hz, decide_eq_true_iff]
  exact lt_of_le_of_lt hxy h

theorem less_of_le_rank {x y z : Float} (hx : exact x ≠ .nan) (hy : exact y ≠ .nan)
    (hxy : rank x ≤ rank y) (h : less z x = true) : less z y = true := by
  have hz : exact z ≠ .nan := by
    intro hz
    rw [less_of_nan (.inl hz)] at h
    cases h
  rw [less_eq hz hx, decide_eq_true_iff] at h
  rw [less_eq hz hy, decide_eq_true_iff]
  exact lt_of_lt_of_le h hxy

variable {times : List Float} {i : Nat} {t v : Float}

theorem lt_countBelow_iff (h : Ascending times) (ht : times[i]? = some t) :
    i < countBelow less times v ↔ less t v = true := by
  unfold countBelow
  refine lt_partitionPoint_iff (less · v) (fun i y hy => by simp only [hy]) ?_ ht
  refine h.ordered.imp_of_mem fun ha hb hab => ?_
  exact less_of_rank_le (h.number _ ha) (h.number _ hb) hab

theorem lt_countUpTo_iff (h : Ascending times) (ht : times[i]? = some t) :
    i < countUpTo less times v ↔ less v t = false := by
  unfold countUpTo
  rw [lt_partitionPoint_iff (!less v ·) (fun i y hy => by simp only [hy]) ?_ ht, Bool.not_eq_true']
  refine h.ordered.imp_of_mem fun {a b} ha hb hab hlt => ?_
  rw [Bool.not_eq_true', Bool.eq_false_iff] at hlt ⊢
  exact fun hva => hlt (less_of_le_rank (h.number a ha) (h.number b hb) hab hva)

/-- The lookup finds the places of the entries that pass the test. -/
theorem mem_matching_iff (h : Ascending times) :
    i ∈ matching times v ↔ ∃ t, times[i]? = some t ∧ isFound v t = true := by
  unfold matching window isFound
  rw [List.mem_filter, Window.mem_places]
  cases ht : times[i]? with
  | none => simp
  | some t =>
    have hlo : _ ↔ _ := lt_countBelow_iff (v := v - searchRadius v) h ht
    have hhi : _ ↔ _ := lt_countUpTo_iff (v := v + searchRadius v) h ht
    simp only [Option.some.injEq, exists_eq_left', Bool.and_eq_true, Bool.not_eq_true',
      ← Bool.not_eq_true (less t _), ← hlo, ← hhi]
    constructor
    · rintro ⟨⟨hstart, hstop⟩, ha⟩
      exact ⟨⟨Nat.not_lt.mpr hstart, hstop⟩, ha⟩
    · rintro ⟨⟨hstart, hstop⟩, ha⟩
      exact ⟨⟨Nat.not_lt.mp hstart, hstop⟩, ha⟩

theorem filterMap_matching {β : Type} {xs : List β} {key : β → Float}
    (h : Ascending (xs.map key)) (v : Float) :
    (matching (xs.map key) v).filterMap (xs[·]?) = xs.filter fun x => isFound v (key x) := by
  refine filterMap_getElem?_eq_filter (ordered_matching _ _) fun i => ?_
  rw [mem_matching_iff h, List.getElem?_map]
  simp only [Option.map_eq_some_iff, exists_exists_and_eq_and]

theorem isIn_eq_any (h : Ascending times) (v : Float) : isIn times v = times.any (isFound v) := by
  unfold isIn
  exact not_isEmpty_eq_any fun _ => mem_matching_iff h

end CueCheck.Binary64
