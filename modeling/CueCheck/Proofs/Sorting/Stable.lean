import CueCheck.Proofs.Sorting

/-!
# Stable sorting

Entries with equal keys keep their order when a list is sorted.

- **Stability** (`filter_key_sortBy`): the entries of one key stand after sorting as they stood
  before, and that settles a sorted list (`eq_of_pairwise_of_filter_key_eq`). Nothing else of their
  order is left (`map_sortBy_of_perm`).
- **Selecting** (`filter_sortBy`): it is the same to select entries before sorting and after.
- **Evaluation** (`sortBy_eq_sorted`): `sorted` gives the sorted list by structural recursion, which
  closed terms need.
-/

namespace CueCheck

variable {β K : Type} [LinearOrder K] {lt : β → β → Bool} {key : β → K} {xs ys : List β}

/-! ## Stability -/

theorem sortBy_eq_mergeSort_key (h : SortsByKey lt key xs) :
    sortBy lt xs = xs.mergeSort fun a b => decide (key a ≤ key b) := by
  have same := List.map_mergeSort (f := id) (r := fun a b => !lt b a)
    (s := fun a b => decide (key a ≤ key b)) (l := xs) fun a ha b hb => by
      rw [h b hb a ha, ← decide_not]
      exact decide_eq_decide.mpr not_lt
  simpa [sortBy] using same

theorem filter_key_sortBy (h : SortsByKey lt key xs) (k : K) :
    (sortBy lt xs).filter (fun a => decide (key a = k)) =
      xs.filter fun a => decide (key a = k) := by
  have pairwise : (xs.filter fun a => decide (key a = k)).Pairwise
      fun a b => decide (key a ≤ key b) = true := by
    refine List.pairwise_of_forall_mem_list fun a ha b hb => ?_
    have ha := of_decide_eq_true (List.mem_filter.mp ha).2
    have hb := of_decide_eq_true (List.mem_filter.mp hb).2
    exact decide_eq_true (ha.trans hb.symm).le
  have stands : (xs.filter fun a => decide (key a = k)).Sublist (sortBy lt xs) := by
    rw [sortBy_eq_mergeSort_key h]
    refine List.sublist_mergeSort ?_ ?_ pairwise List.filter_sublist
    · intro a b c hab hbc
      exact decide_eq_true (le_trans (of_decide_eq_true hab) (of_decide_eq_true hbc))
    · intro a b
      simpa using le_total (key a) (key b)
  have kept := stands.filter fun a => decide (key a = k)
  rw [List.filter_filter] at kept
  simp only [Bool.and_self] at kept
  exact (kept.eq_of_length ((sortBy_perm lt xs).filter _).length_eq.symm).symm

/-- A sorted list is settled by the entries of each key. -/
theorem eq_of_pairwise_of_filter_key_eq (hx : xs.Pairwise fun a b => key a ≤ key b)
    (hy : ys.Pairwise fun a b => key a ≤ key b)
    (h : ∀ k, xs.filter (fun a => decide (key a = k)) = ys.filter fun a => decide (key a = k)) :
    xs = ys := by
  -- The least key of a list is that of its head, so the heads have one key, and it settles them.
  have least {x : β} {xs ys : List β} (hy : ys.Pairwise fun a b => key a ≤ key b)
      (h : ∀ k, (x :: xs).filter (fun a => decide (key a = k)) =
        ys.filter fun a => decide (key a = k)) : ∃ y rest, ys = y :: rest ∧ key y ≤ key x := by
    have mem : x ∈ ys.filter fun a => decide (key a = key x) := by
      rw [← h]
      exact List.mem_filter.mpr ⟨List.mem_cons_self, decide_eq_true rfl⟩
    have mem := List.mem_of_mem_filter mem
    cases ys with
    | nil => cases mem
    | cons y rest =>
      refine ⟨y, rest, rfl, ?_⟩
      rcases List.mem_cons.mp mem with rfl | mem
      · exact le_rfl
      · exact (List.pairwise_cons.mp hy).1 x mem
  induction xs generalizing ys with
  | nil =>
    cases ys with
    | nil => rfl
    | cons y rest =>
      obtain ⟨_, _, absurd, -⟩ := least hx fun k => (h k).symm
      cases absurd
  | cons x xs ih =>
    obtain ⟨y, rest, rfl, le⟩ := least hy h
    obtain ⟨_, _, ⟨⟩, ge⟩ := least hx fun k => (h k).symm
    have same : key y = key x := le_antisymm le ge
    have heads := h (key x)
    simp only [List.filter_cons, same, decide_true, if_true, List.cons.injEq] at heads
    obtain ⟨rfl, -⟩ := heads
    refine congrArg _ (ih (List.pairwise_cons.mp hx).2 (List.pairwise_cons.mp hy).2 fun k => ?_)
    have rests := h k
    rw [List.filter_cons, List.filter_cons] at rests
    split at rests
    · exact List.cons_injective rests
    · exact rests

theorem sortBy_congr_perm (hp : xs.Perm ys) : (sortBy lt xs).Perm (sortBy lt ys) :=
  (sortBy_perm lt xs).trans (hp.trans (sortBy_perm lt ys).symm)

/-- Where keys settle what is seen of an entry, a sorted list shows nothing of the order that the
entries had before. -/
theorem map_sortBy_of_perm {γ : Type} {f : β → γ} (hp : xs.Perm ys) (h : SortsByKey lt key xs)
    (seen : ∀ a ∈ xs, ∀ b ∈ ys, key a = key b → f a = f b) :
    (sortBy lt xs).map f = (sortBy lt ys).map f := by
  rw [← List.forall₂_eq_eq_eq, List.forall₂_map_left_iff, List.forall₂_map_right_iff]
  refine (forall₂_sortBy (hp.map key) h (h.of_perm hp)).imp ?_
  rintro a b ⟨⟨ha, hb⟩, same⟩
  exact seen a ha b hb same

/-! ## Selecting -/

theorem SortsByKey.filter (h : SortsByKey lt key xs) (p : β → Bool) :
    SortsByKey lt key (xs.filter p) :=
  fun a ha b hb => h a (List.mem_of_mem_filter ha) b (List.mem_of_mem_filter hb)

/-- Entries can be selected before a list is sorted, or after. -/
theorem filter_sortBy (h : SortsByKey lt key xs) (p : β → Bool) :
    (sortBy lt xs).filter p = sortBy lt (xs.filter p) := by
  refine eq_of_pairwise_of_filter_key_eq ((pairwise_sortBy h).filter p)
    (pairwise_sortBy (h.filter p)) fun k => ?_
  rw [filter_key_sortBy (h.filter p), List.filter_comm, filter_key_sortBy h, List.filter_comm]

/-! ## Evaluation -/

/-- Adds to the merged rest of two lists the entries that come before `x`, and `x`. -/
def mergeAt (le : β → β → Bool) (x : β) (xs : List β) (rest : List β → List β) :
    List β → List β
  | [] => x :: xs
  | y :: ys => if le x y then x :: rest (y :: ys) else y :: mergeAt le x xs rest ys

/-- Merges two lists. -/
def merged (le : β → β → Bool) : List β → List β → List β
  | [] => id
  | x :: xs => mergeAt le x xs (merged le xs)

theorem merged_eq (le : β → β → Bool) (xs ys : List β) : merged le xs ys = xs.merge ys le := by
  induction xs generalizing ys with
  | nil => simp [merged]
  | cons x xs ih =>
    rw [merged]
    induction ys with
    | nil => simp [mergeAt]
    | cons y ys ihy => rw [mergeAt, List.cons_merge_cons, ih, ihy]

/-- Sorts by halves; the depth is at most the first argument. -/
def sortedIn (lt : β → β → Bool) : ℕ → List β → List β
  | 0, xs => xs
  | depth + 1, x :: y :: xs =>
    let half := (xs.length + 3) / 2
    merged (fun a b => !lt b a) (sortedIn lt depth ((x :: y :: xs).take half))
      (sortedIn lt depth ((x :: y :: xs).drop half))
  | _, xs => xs

/-- A list in ascending order. -/
def sorted (lt : β → β → Bool) (xs : List β) : List β :=
  sortedIn lt xs.length xs

theorem sortBy_eq_sorted (lt : β → β → Bool) (xs : List β) : sortBy lt xs = sorted lt xs := by
  have halves (depth : ℕ) (xs : List β) (h : xs.length ≤ depth) :
      sortedIn lt depth xs = xs.mergeSort fun a b => !lt b a := by
    induction depth generalizing xs with
    | zero =>
      rw [List.eq_nil_of_length_eq_zero (Nat.le_zero.mp h)]
      simp [sortedIn]
    | succ depth ih =>
      match xs with
      | [] => simp [sortedIn]
      | [x] => simp [sortedIn]
      | x :: y :: xs =>
        rw [List.length_cons, List.length_cons] at h
        rw [sortedIn, List.mergeSort]
        simp only [List.MergeSort.Internal.splitInTwo_fst, List.MergeSort.Internal.splitInTwo_snd,
          merged_eq]
        rw [ih _ (by simp only [List.length_take, List.length_cons]; omega),
          ih _ (by simp only [List.length_drop, List.length_cons]; omega)]
        rfl
  exact (halves _ xs le_rfl).symm

end CueCheck
