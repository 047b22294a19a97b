import CueCheck.Finding
import CueCheck.Proofs.Binary64.Lookup

/-!
# The list of all findings

All findings are listed by sorting the concatenated kinds once more and dropping repeats once more.
Where every kind is listed already, both change nothing.

- **One kind** (`IsListing`): its times ascend and no two neighbours are equal up to tolerance. That
  is what `sortedTimes` makes of numbers (`isListing_sortedTimes`).
- **All kinds** (`list_eq_concatenated`): the list is the concatenation, in reporting order.
- **Number** (`count_eq_length`, `isPresent_iff`): the count is the length of the concatenation.
-/

namespace CueCheck

open Scalar (exact less)

/-! ## One kind -/

/-- Numbers in ascending order, none equal up to tolerance to the one before it. -/
structure IsListing (times : List Float) : Prop extends Binary64.Ascending times where
  apart : times.IsChain fun a b => ¬almostEqual a b = true

theorem isListing_nil : IsListing [] :=
  ⟨⟨fun _ h => (List.not_mem_nil h).elim, .nil⟩, .nil⟩

theorem isListing_sortedTimes {times : List Float} (number : ∀ t ∈ times, exact t ≠ .nan) :
    IsListing (sortedTimes times) where
  number t ht := number t (mem_of_mem_sortedTimes ht)
  ordered := (Binary64.ascending_ascending number).ordered.sublist (collapseBy_sublist _)
  apart := isChain_collapseBy _

/-! ## All kinds -/

theorem FindingKind.pairwise_all : all.Pairwise fun a b => a.priority < b.priority := by
  decide

namespace Findings

variable {findings : Findings Float}

/-- The findings of some kinds, one kind after the other. -/
def ofKinds {α : Type} (findings : Findings α) (kinds : List FindingKind) : List (Finding α) :=
  kinds.flatMap fun kind => (findings.times kind).map (⟨kind, ·⟩)

theorem kind_mem_of_mem_ofKinds {α : Type} {findings : Findings α} {kinds : List FindingKind}
    {finding : Finding α} (h : finding ∈ findings.ofKinds kinds) : finding.kind ∈ kinds := by
  obtain ⟨kind, hk, h⟩ := List.mem_flatMap.mp h
  obtain ⟨t, -, rfl⟩ := List.mem_map.mp h
  exact hk

/-- No finding comes before one that stands in front of it. -/
theorem pairwise_ofKinds (h : ∀ kind, IsListing (findings.times kind)) {kinds : List FindingKind}
    (ordered : kinds.Pairwise fun a b => a.priority < b.priority) :
    (findings.ofKinds kinds).Pairwise fun a b => b.precedes a = false := by
  unfold ofKinds
  rw [List.pairwise_flatMap]
  constructor
  · intro kind _
    rw [List.pairwise_map]
    refine (h kind).ordered.imp_of_mem fun {s t} hs ht hst => ?_
    unfold Finding.precedes
    rw [if_pos rfl, Binary64.less_eq ((h kind).number t ht) ((h kind).number s hs)]
    exact decide_eq_false (not_lt.mpr hst)
  · refine ordered.imp fun {a b} hab x hx y hy => ?_
    obtain ⟨s, -, rfl⟩ := List.mem_map.mp hx
    obtain ⟨t, -, rfl⟩ := List.mem_map.mp hy
    unfold Finding.precedes
    rw [if_neg hab.ne']
    exact decide_eq_false hab.not_gt

/-- No finding repeats the one before it. -/
theorem isChain_ofKinds (h : ∀ kind, IsListing (findings.times kind)) {kinds : List FindingKind}
    (nodup : kinds.Nodup) : (findings.ofKinds kinds).IsChain fun a b => ¬a.same b = true := by
  induction kinds with
  | nil => exact .nil
  | cons kind kinds ih =>
    obtain ⟨fresh, nodup⟩ := List.nodup_cons.mp nodup
    have here : ((findings.times kind).map (⟨kind, ·⟩ : Float → Finding Float)).IsChain
        fun a b => ¬a.same b = true := by
      rw [List.isChain_map]
      refine (h kind).apart.imp fun s t hst => ?_
      simpa [Finding.same] using hst
    refine List.isChain_append.mpr ⟨here, ih nodup, fun x hx y hy => ?_⟩
    -- Where the kinds change, the next finding is of another kind.
    obtain ⟨s, -, rfl⟩ := List.mem_map.mp (List.mem_of_mem_getLast? hx)
    have hy' : y.kind ∈ kinds := kind_mem_of_mem_ofKinds (List.mem_of_mem_head? hy)
    have differ : kind ≠ y.kind := fun e => fresh (e ▸ hy')
    simp [Finding.same, differ]

/-- Listing what is listed kind by kind neither drops nor moves a finding. -/
theorem list_eq_concatenated (h : ∀ kind, IsListing (findings.times kind)) :
    findings.list = findings.concatenated := by
  have sorted : sortBy Finding.precedes findings.concatenated = findings.concatenated :=
    sortBy_of_pairwise (pairwise_ofKinds h FindingKind.pairwise_all)
  have nodup : FindingKind.all.Nodup := FindingKind.pairwise_all.imp fun {a b} hab => by
    rintro rfl
    exact lt_irrefl _ hab
  unfold list sortFindings
  rw [sorted]
  exact collapseBy_of_isChain (isChain_ofKinds h nodup)

/-! ## Number -/

section Count

variable {α : Type} (findings : Findings α)

theorem count_eq_length : findings.count = findings.concatenated.length := by
  unfold count concatenated
  simp only [List.length_flatMap, List.length_map]
  rw [List.sum_eq_foldl, List.foldl_map]

theorem isPresent_iff : findings.isPresent = true ↔ findings.concatenated ≠ [] := by
  unfold isPresent
  rw [count_eq_length, decide_eq_true_iff, List.length_pos_iff]

theorem concatenated_eq_nil_iff :
    findings.concatenated = [] ↔ ∀ kind, findings.times kind = [] := by
  unfold concatenated
  rw [List.flatMap_eq_nil_iff]
  simp only [List.map_eq_nil_iff]
  exact ⟨fun h kind => h kind kind.mem_all, fun h kind _ => h kind⟩

/-- The kinds with findings, in reporting order. -/
def foundKinds : List FindingKind :=
  FindingKind.all.filter fun kind => !(findings.times kind).isEmpty

theorem foundKinds_eq_nil_iff : findings.foundKinds = [] ↔ findings.isPresent = false := by
  unfold foundKinds
  rw [← Bool.not_eq_true, isPresent_iff, not_not, concatenated_eq_nil_iff, List.filter_eq_nil_iff]
  constructor
  · intro h kind
    simpa using h kind kind.mem_all
  · intro h kind _
    simp [h kind]

end Count

end Findings

end CueCheck
