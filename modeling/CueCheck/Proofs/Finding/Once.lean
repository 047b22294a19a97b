import CueCheck.Finding
import CueCheck.Proofs.Tolerance
import Mathlib

/-!
# Every finding is reported once

Repeats are dropped by comparing neighbours, under an equality that is not transitive. Over exact
rationals no repeat gets through: what lies between a time and a repeat of it is a repeat too, so
whatever separates two entries of a report keeps them apart.

- **Distant entries** (`pairwise_collapseBy`): if neighbours differ, so do all entries.
- **Reports** (`ListsOnce`, `listsOnce_collapseBy_sortBy`): sorting and collapsing lists each entry
  once, whatever is sorted, if sameness is as above.
- **Findings** (`Finding.precedes_eq_place`, `Finding.same_of_between`): they are sorted by kind and
  time, and findings between two of one kind are of that kind.
- **The result** (`reports_listOnce`): so the times of a report are listed, and its findings.
-/

namespace CueCheck

/-! ## Distant entries -/

section Collapse

variable {β K : Type} [LinearOrder K] {key : β → K} {same : β → β → Bool}

/-- Repeats of an entry fill the list up to the last of them: what stands between two entries that
are the same is the same as the first. -/
def FillsGaps (key : β → K) (same : β → β → Bool) : Prop :=
  ∀ a b c, key a ≤ key b → key b ≤ key c → same a c = true → same a b = true

/-- In a sorted list without repeats among neighbours, all entries differ. -/
theorem pairwise_of_isChain {xs : List β} (fills : FillsGaps key same)
    (ordered : xs.Pairwise fun a b => key a ≤ key b)
    (chain : xs.IsChain fun a b => ¬same a b = true) :
    xs.Pairwise fun a b => ¬same a b = true := by
  -- To come later and to differ is transitive, although to differ is not.
  have trans : IsTrans β fun a b => key a ≤ key b ∧ ¬same a b = true :=
    ⟨fun a b c hab hbc => ⟨hab.1.trans hbc.1, fun h => hab.2 (fills a b c hab.1 hbc.1 h)⟩⟩
  have both : xs.IsChain fun a b => key a ≤ key b ∧ ¬same a b = true := by
    rw [List.isChain_iff_getElem] at chain ⊢
    intro i hi
    exact ⟨List.pairwise_iff_getElem.mp ordered i (i + 1) _ hi (by omega), chain i hi⟩
  exact both.pairwise.imp And.right

theorem pairwise_collapseBy {xs : List β} (fills : FillsGaps key same)
    (ordered : xs.Pairwise fun a b => key a ≤ key b) :
    (collapseBy same xs).Pairwise fun a b => ¬same a b = true :=
  pairwise_of_isChain fills (ordered.sublist (collapseBy_sublist xs)) (isChain_collapseBy xs)

/-! ## Reports -/

/-- A way to list entries by their keys that lists each of them once. -/
structure ListsOnce (key : β → K) (same : β → β → Bool) (list : List β → List β) : Prop where
  /-- What is listed is a part of what is given. -/
  given (entries : List β) : (list entries).Subperm entries
  ordered (entries : List β) : (list entries).Pairwise fun a b => key a ≤ key b
  /-- No two entries are the same, wherever they stand. -/
  apart (entries : List β) : (list entries).Pairwise fun a b => ¬same a b = true
  /-- Whatever is given is the same as an entry of the list. -/
  represented (entries : List β) : ∀ a ∈ entries, ∃ b ∈ list entries, same b a = true
  /-- A list is listed as it is. -/
  idempotent (entries : List β) : list (list entries) = list entries
  /-- The order in which entries are given does not matter. -/
  perm {entries others : List β} (h : entries.Perm others) : list entries = list others

theorem listsOnce_collapseBy_sortBy {lt : β → β → Bool} (sorts : ∀ xs, SortsByKey lt key xs)
    (injective : key.Injective) (refl : ∀ a, same a a = true) (fills : FillsGaps key same) :
    ListsOnce key same fun entries => collapseBy same (sortBy lt entries) := by
  have ordered (entries : List β) :
      (collapseBy same (sortBy lt entries)).Pairwise fun a b => key a ≤ key b :=
    (pairwise_sortBy (sorts entries)).sublist (collapseBy_sublist _)
  refine
    { given := fun entries =>
        (collapseBy_sublist _).subperm.trans (sortBy_perm lt entries).subperm
      ordered
      apart := fun entries => pairwise_collapseBy fills (pairwise_sortBy (sorts entries))
      represented := fun entries a mem =>
        exists_mem_collapseBy (fun b _ => refl b) (mem_sortBy.mpr mem)
      idempotent := fun entries => ?_
      perm := fun {entries others} h => ?_ }
  · have stands : sortBy lt (collapseBy same (sortBy lt entries)) =
        collapseBy same (sortBy lt entries) :=
      sortBy_of_pairwise ((ordered entries).imp_of_mem fun {a b} ha hb le => by
        rw [sorts _ b hb a ha]
        exact decide_eq_false (not_lt.mpr le))
    simp only [stands]
    exact collapseBy_of_isChain (isChain_collapseBy _)
  · have keys := map_key_sortBy_of_perm (h.map key) (sorts entries) (sorts others)
    exact congrArg (collapseBy same) (List.map_injective_iff.mpr injective keys)

end Collapse

/-! ## Findings -/

namespace Finding

/-- The place of a finding in a report: by kind, then by time. -/
def place (finding : Finding ℚ) : ℕ ×ₗ ℚ :=
  toLex (finding.kind.priority, finding.time)

theorem place_injective : Function.Injective place := by
  rintro ⟨k, s⟩ ⟨l, t⟩ h
  obtain ⟨kinds, times⟩ := Prod.mk.inj (toLex.injective h)
  obtain rfl : k = l := FindingKind.priority_injective kinds
  obtain rfl : s = t := times
  rfl

theorem precedes_eq_place (a b : Finding ℚ) : a.precedes b = decide (a.place < b.place) := by
  unfold precedes place
  rw [Bool.eq_iff_iff, decide_eq_true_iff, Prod.Lex.toLex_lt_toLex]
  by_cases h : a.kind.priority = b.kind.priority
  · simp [h, less_iff]
  · simp [h]

theorem same_iff {a b : Finding ℚ} :
    a.same b = true ↔ a.kind = b.kind ∧ almostEqual a.time b.time = true := by
  unfold same
  rw [Bool.and_eq_true, beq_iff_eq]

/-- What stands between two findings of one kind is of that kind, at a time between theirs. -/
theorem same_of_between : FillsGaps place same := by
  intro a b c hab hbc hac
  obtain ⟨kind, times⟩ := same_iff.mp hac
  rw [place, place, Prod.Lex.toLex_le_toLex] at hab hbc
  rw [← kind] at hbc
  have kinds : a.kind.priority = b.kind.priority :=
    le_antisymm (hab.elim le_of_lt fun h => h.1.le) (hbc.elim le_of_lt fun h => h.1.le)
  have le : a.time ≤ b.time := (hab.resolve_left kinds.not_lt).2
  have le' : b.time ≤ c.time := (hbc.resolve_left kinds.not_gt).2
  exact same_iff.mpr ⟨FindingKind.priority_injective kinds, almostEqual_of_between le le' times⟩

end Finding

/-! ## The result -/

/-- Reported times are listed once each, and so are findings, by kind and time. -/
theorem reports_listOnce :
    ListsOnce id almostEqual (sortedTimes (α := ℚ)) ∧
      ListsOnce Finding.place Finding.same (sortFindings (α := ℚ)) := by
  constructor
  · exact listsOnce_collapseBy_sortBy (sortsByKey_less id) Function.injective_id almostEqual_self
      fun _ _ _ => almostEqual_of_between
  · exact listsOnce_collapseBy_sortBy (fun _ a _ b _ => Finding.precedes_eq_place a b)
      Finding.place_injective
      (fun a => Finding.same_iff.mpr ⟨rfl, almostEqual_self a.time⟩) Finding.same_of_between

end CueCheck
