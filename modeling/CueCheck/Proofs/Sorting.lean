import CueCheck.Tolerance
import Mathlib.Order.Lattice
import Mathlib.Data.List.Destutter
import Mathlib.Data.List.Forall2

/-!
# Sorting and collapsing

What `sortBy` and `collapseBy` keep of a list, for entries of any type.

- **Reordering** (`perm_of_filter_perm`): lists are permutations if they are tag by tag.
- **Keys** (`SortsByKey lt key xs`): on the entries of `xs`, `lt` compares keys of a linear order.
  The sorted list then has ascending keys (`pairwise_sortBy`), and the keys of two sorted lists
  agree if the lists have the same keys in some order (`map_key_sortBy_of_perm`), although entries
  with equal keys may stand in another order.
- **Collapsing**: the entries kept were there before, in that order (`collapseBy_sublist`), and
  every entry is the same as one that is kept (`exists_mem_collapseBy`).
- **Related lists** (`forall₂_collapseBy`, `forall₂_sortBy_of_congr`): lists related entry by entry
  collapse to lists that are, and are sorted to such lists.
- **Nothing to do** (`sortBy_of_pairwise`, `collapseBy_of_isChain`): a sorted list stays as it is
  when it is sorted, and so does a list without repeats among neighbours when it is collapsed.
- **Both** (`map_collapseBy_sortBy`): where keys settle all that is seen of an entry, the order that
  a list had before does not show.
-/

namespace CueCheck

variable {β γ K : Type} [LinearOrder K] {lt : β → β → Bool} {key : β → K}

@[simp] theorem mem_sortBy {xs : List β} {a : β} : a ∈ sortBy lt xs ↔ a ∈ xs :=
  List.mem_mergeSort

theorem sortBy_perm (lt : β → β → Bool) (xs : List β) : (sortBy lt xs).Perm xs :=
  List.mergeSort_perm _ _

/-- Lists with the same entries of each tag, in whatever order, are permutations. -/
theorem perm_of_filter_perm {β κ : Type} [DecidableEq κ] (tag : β → κ) {xs ys : List β}
    (h : ∀ k, (xs.filter (tag · == k)).Perm (ys.filter (tag · == k))) : xs.Perm ys := by
  classical
  rw [List.perm_iff_count]
  intro a
  have hx := List.count_filter (p := (tag · == tag a)) (l := xs) (beq_self_eq_true (tag a))
  have hy := List.count_filter (p := (tag · == tag a)) (l := ys) (beq_self_eq_true (tag a))
  rw [← hx, ← hy, (h (tag a)).count_eq]

/-- On the entries of a list, an order compares keys. -/
def SortsByKey (lt : β → β → Bool) (key : β → K) (xs : List β) : Prop :=
  ∀ a ∈ xs, ∀ b ∈ xs, lt a b = decide (key a < key b)

/-- Sorting the entries sorts their keys. -/
theorem map_key_sortBy {xs : List β} (h : SortsByKey lt key xs) :
    (sortBy lt xs).map key = (xs.map key).mergeSort fun x y => decide (x ≤ y) := by
  unfold sortBy
  refine List.map_mergeSort fun a ha b hb => ?_
  rw [h b hb a ha, ← decide_not]
  exact decide_eq_decide.mpr not_lt

private theorem pairwise_mergeSort_le (ks : List K) :
    (ks.mergeSort fun x y => decide (x ≤ y)).Pairwise (· ≤ ·) := by
  have h : (ks.mergeSort fun x y => decide (x ≤ y)).Pairwise fun x y => decide (x ≤ y) = true := by
    apply List.pairwise_mergeSort
    · intro a b c hab hbc
      exact decide_eq_true (le_trans (of_decide_eq_true hab) (of_decide_eq_true hbc))
    · intro a b
      simpa using le_total a b
  exact h.imp of_decide_eq_true

/-- A sorted list has ascending keys. -/
theorem pairwise_sortBy {xs : List β} (h : SortsByKey lt key xs) :
    (sortBy lt xs).Pairwise fun a b => key a ≤ key b := by
  rw [← List.pairwise_map (f := key), map_key_sortBy h]
  exact pairwise_mergeSort_le _

/-- The keys of a sorted list do not depend on the order that they had. -/
theorem map_key_sortBy_of_perm {xs ys : List β} (hp : (xs.map key).Perm (ys.map key))
    (hx : SortsByKey lt key xs) (hy : SortsByKey lt key ys) :
    (sortBy lt xs).map key = (sortBy lt ys).map key := by
  rw [map_key_sortBy hx, map_key_sortBy hy]
  refine List.Perm.eq_of_pairwise (fun a b _ _ => le_antisymm) (pairwise_mergeSort_le _)
    (pairwise_mergeSort_le _) ?_
  exact (List.mergeSort_perm _ _).trans (hp.trans (List.mergeSort_perm _ _).symm)

theorem sortBy_of_pairwise {xs : List β} (h : xs.Pairwise fun a b => lt b a = false) :
    sortBy lt xs = xs := by
  unfold sortBy
  refine List.mergeSort_of_pairwise (h.imp fun {a b} hab => ?_)
  rw [hab]
  rfl

/-! ## Collapsing -/

section Collapse

variable {same : β → β → Bool}

/-- Collapsing keeps each entry that differs from the one kept last. -/
theorem collapseBy_eq_destutter (xs : List β) :
    collapseBy same xs = xs.destutter fun a b => ¬same a b = true := by
  have kept (last : β) (xs : List β) :
      last :: collapseBy.after same last xs = xs.destutter' (fun a b => ¬same a b = true) last := by
    induction xs generalizing last with
    | nil => rfl
    | cons x xs ih =>
      unfold collapseBy.after
      by_cases h : same last x = true
      · rw [if_pos h, List.destutter'_cons_neg _ (not_not.mpr h), ih]
      · rw [if_neg h, List.destutter'_cons_pos _ h, ih]
  cases xs with
  | nil => rfl
  | cons x xs => exact kept x xs

theorem isChain_collapseBy (xs : List β) :
    (collapseBy same xs).IsChain fun a b => ¬same a b = true := by
  rw [collapseBy_eq_destutter]
  exact List.isChain_destutter _ xs

theorem collapseBy_of_isChain {xs : List β} (h : xs.IsChain fun a b => ¬same a b = true) :
    collapseBy same xs = xs := by
  rw [collapseBy_eq_destutter, List.destutter_of_isChain _ xs h]

theorem after_sublist {last : β} {xs : List β} : (collapseBy.after same last xs).Sublist xs := by
  induction xs generalizing last with
  | nil => exact .slnil
  | cons x xs ih =>
    unfold collapseBy.after
    split
    · exact ih.cons x
    · exact ih.cons_cons x

/-- What is kept stands in the order in which it stood. -/
theorem collapseBy_sublist (xs : List β) : (collapseBy same xs).Sublist xs := by
  cases xs with
  | nil => exact .slnil
  | cons x xs => exact after_sublist.cons_cons x

theorem mem_of_mem_collapseBy {a : β} {xs : List β} (h : a ∈ collapseBy same xs) : a ∈ xs :=
  (collapseBy_sublist xs).subset h

/-- An entry that is dropped is the same as the one kept last before it. -/
theorem exists_mem_after {last a : β} {xs : List β} (refl : ∀ b ∈ xs, same b b = true)
    (h : a ∈ xs) : ∃ b ∈ last :: collapseBy.after same last xs, same b a = true := by
  induction xs generalizing last with
  | nil => cases h
  | cons x xs ih =>
    have refl' : ∀ b ∈ xs, same b b = true := fun b hb => refl b (List.mem_cons_of_mem x hb)
    unfold collapseBy.after
    rcases List.mem_cons.mp h with rfl | h
    · by_cases hs : same last a = true
      · exact ⟨last, List.mem_cons_self, hs⟩
      · rw [if_neg hs]
        exact ⟨a, List.mem_cons_of_mem _ List.mem_cons_self, refl a List.mem_cons_self⟩
    · split
      · exact ih refl' h
      · obtain ⟨b, hb, hba⟩ : ∃ b ∈ x :: collapseBy.after same x xs, same b a = true := ih refl' h
        exact ⟨b, List.mem_cons_of_mem _ hb, hba⟩

theorem exists_mem_collapseBy {a : β} {xs : List β} (refl : ∀ b ∈ xs, same b b = true)
    (h : a ∈ xs) : ∃ b ∈ collapseBy same xs, same b a = true := by
  cases xs with
  | nil => cases h
  | cons x xs =>
    rcases List.mem_cons.mp h with rfl | h
    · exact ⟨a, List.mem_cons_self, refl a List.mem_cons_self⟩
    · exact exists_mem_after (fun b hb => refl b (List.mem_cons_of_mem x hb)) h

variable {other : γ → γ → Bool} {R : β → γ → Prop}

theorem forall₂_after (congr : ∀ a b c d, R a c → R b d → same a b = other c d) {a : β} {c : γ}
    {xs : List β} {ys : List γ} (hac : R a c) (h : List.Forall₂ R xs ys) :
    List.Forall₂ R (collapseBy.after same a xs) (collapseBy.after other c ys) := by
  induction h generalizing a c with
  | nil => exact .nil
  | cons hxy _ ih =>
    unfold collapseBy.after
    rw [congr _ _ _ _ hac hxy]
    split
    · exact ih hac
    · exact .cons hxy (ih hxy)

/-- Entries of which the same pairs count as the same collapse in the same way. -/
theorem forall₂_collapseBy (congr : ∀ a b c d, R a c → R b d → same a b = other c d)
    {xs : List β} {ys : List γ} (h : List.Forall₂ R xs ys) :
    List.Forall₂ R (collapseBy same xs) (collapseBy other ys) := by
  cases h with
  | nil => exact .nil
  | cons hxy h => exact .cons hxy (forall₂_after congr hxy h)

end Collapse

/-! ## Sorting related lists -/

section Related

variable {other : γ → γ → Bool} {R : β → γ → Prop}

theorem exists_zip_of_forall₂ {xs : List β} {ys : List γ} (h : List.Forall₂ R xs ys) :
    ∃ pairs : List (β × γ), pairs.map Prod.fst = xs ∧ pairs.map Prod.snd = ys ∧
      ∀ pair ∈ pairs, R pair.1 pair.2 := by
  obtain ⟨length, related⟩ := List.forall₂_iff_zip.mp h
  exact ⟨xs.zip ys, List.map_fst_zip length.le, List.map_snd_zip length.ge,
    fun _ mem => related mem⟩

/-- Where the orders agree, lists related entry by entry are sorted to lists that are. -/
theorem forall₂_sortBy_of_congr (congr : ∀ a b c d, R a c → R b d → lt a b = other c d)
    {xs : List β} {ys : List γ} (h : List.Forall₂ R xs ys) :
    List.Forall₂ R (sortBy lt xs) (sortBy other ys) := by
  obtain ⟨pairs, rfl, rfl, related⟩ := exists_zip_of_forall₂ h
  have left : sortBy lt (pairs.map Prod.fst) =
      (pairs.mergeSort fun p q => !lt q.1 p.1).map Prod.fst := by
    refine (List.map_mergeSort fun p _ q _ => ?_).symm
    rfl
  have right : sortBy other (pairs.map Prod.snd) =
      (pairs.mergeSort fun p q => !lt q.1 p.1).map Prod.snd := by
    refine (List.map_mergeSort fun p hp q hq => ?_).symm
    rw [congr _ _ _ _ (related q hq) (related p hp)]
  rw [left, right, List.forall₂_map_left_iff, List.forall₂_map_right_iff, List.forall₂_same]
  exact fun pair mem => related pair (List.mem_mergeSort.mp mem)

end Related

/-! ## Sorting, then collapsing -/

section Perm

variable {xs ys : List β}

theorem SortsByKey.of_perm (hp : xs.Perm ys) (h : SortsByKey lt key xs) : SortsByKey lt key ys :=
  fun a ha b hb => h a (hp.mem_iff.mpr ha) b (hp.mem_iff.mpr hb)

/-- Sorted lists with the same keys are alike entry by entry, in all that keys settle. -/
theorem forall₂_sortBy (hp : (xs.map key).Perm (ys.map key)) (hx : SortsByKey lt key xs)
    (hy : SortsByKey lt key ys) :
    List.Forall₂ (fun a b => (a ∈ xs ∧ b ∈ ys) ∧ key a = key b) (sortBy lt xs) (sortBy lt ys) := by
  have hkeys : List.Forall₂ (fun a b => key a = key b) (sortBy lt xs) (sortBy lt ys) := by
    have h' := map_key_sortBy_of_perm hp hx hy
    rwa [← List.forall₂_eq_eq_eq, List.forall₂_map_left_iff, List.forall₂_map_right_iff] at h'
  rw [List.forall₂_iff_zip] at hkeys ⊢
  refine ⟨hkeys.1, fun {a b} hab => ?_⟩
  obtain ⟨ha, hb⟩ := List.of_mem_zip hab
  rw [mem_sortBy] at ha hb
  exact ⟨⟨ha, hb⟩, hkeys.2 hab⟩

/-- Where keys settle which entries count as the same and what is seen of an entry, sorting and
collapsing show nothing but the keys that a list has, in whatever order. -/
theorem map_collapseBy_sortBy {same : β → β → Bool} {f : β → γ}
    (hp : (xs.map key).Perm (ys.map key)) (hx : SortsByKey lt key xs) (hy : SortsByKey lt key ys)
    (congr : ∀ a ∈ xs, ∀ b ∈ xs, ∀ c ∈ ys, ∀ d ∈ ys, key a = key c → key b = key d →
      same a b = same c d)
    (seen : ∀ a ∈ xs, ∀ b ∈ ys, key a = key b → f a = f b) :
    (collapseBy same (sortBy lt xs)).map f = (collapseBy same (sortBy lt ys)).map f := by
  have hcongr (a b c d : β) (hac : (a ∈ xs ∧ c ∈ ys) ∧ key a = key c)
      (hbd : (b ∈ xs ∧ d ∈ ys) ∧ key b = key d) : same a b = same c d :=
    congr a hac.1.1 b hbd.1.1 c hac.1.2 d hbd.1.2 hac.2 hbd.2
  have hkept := forall₂_collapseBy hcongr (forall₂_sortBy hp hx hy)
  rw [← List.forall₂_eq_eq_eq, List.forall₂_map_left_iff, List.forall₂_map_right_iff]
  exact hkept.imp fun a b ⟨⟨ha, hb⟩, hab⟩ => seen a ha b hb hab

end Perm

end CueCheck
