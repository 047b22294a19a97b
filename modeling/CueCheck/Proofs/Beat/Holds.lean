import CueCheck.Beat.Holds
import CueCheck.Proofs.Tolerance
import Mathlib.Data.Prod.Lex

/-!
# Comparing neighbouring holds is enough

Over exact rationals, holds are compared with the next one only, in order of hit and release. That
finds all holds that run into any later one, whatever their releases.

- **Order** (`Hold.precedes_eq_toLex`): holds are sorted by hit, then by release.
- **One comparison** (`Hold.runsInto_of_le`): a hold that runs into another one runs into each that
  begins earlier, for what lies between two times equal up to tolerance is equal to them.
- **All comparisons** (`overlappingHits_eq`): so the next hold stands for all later ones.
- **The result** (`checkHolds_all`): the holds found are those that run into some later hold, and
  the releases found those at some hit.
-/

namespace CueCheck

section Later

variable {α : Type} [Scalar α]

/-- The holds that run into some hold after them, in order. -/
def intoLater : List (Hold α) → List (Hold α)
  | [] => []
  | hold :: later =>
    if later.any hold.runsInto then hold :: intoLater later else intoLater later

end Later

namespace Hold

variable {a b c : Hold Rat}

/-- Holds are sorted by hit, then by release. -/
theorem precedes_eq_toLex (a b : Hold Rat) :
    a.precedes b = decide (toLex (a.hit, a.release) < toLex (b.hit, b.release)) := by
  unfold precedes
  rw [Bool.eq_iff_iff, decide_eq_true_iff, Prod.Lex.toLex_lt_toLex]
  by_cases h : a.hit = b.hit
  · simp [h, less_iff]
  · simp [h, less_iff]

theorem runsInto_iff :
    a.runsInto b = true ↔ b.hit < a.release ∨ almostEqual b.hit a.release = true := by
  unfold runsInto
  rw [Bool.or_eq_true, less_iff]

/-- A hold that runs into another one runs into each that begins earlier. -/
theorem runsInto_of_le (h : b.hit ≤ c.hit) (hc : a.runsInto c = true) : a.runsInto b = true := by
  rw [runsInto_iff] at hc ⊢
  rcases hc with hlt | heq
  · exact .inl (lt_of_le_of_lt h hlt)
  · rcases lt_or_ge b.hit a.release with hb | hb
    · exact .inl hb
    · -- The release is not after the earlier hit, which lies between it and the later one.
      right
      rw [almostEqual_comm] at heq ⊢
      exact almostEqual_of_between hb h heq

end Hold

/-- In order of hit, the holds that run into the next one are those that run into any later one. -/
theorem overlappingHits_eq {holds : List (Hold Rat)} (h : holds.Pairwise fun a b => a.hit ≤ b.hit) :
    overlappingHits holds = (intoLater holds).map (·.hit) := by
  induction holds with
  | nil => rfl
  | cons hold later ih =>
    obtain ⟨first, rest⟩ := List.pairwise_cons.mp h
    cases later with
    | nil => rfl
    | cons next later =>
      have next_stands : (next :: later).any hold.runsInto = hold.runsInto next := by
        rw [Bool.eq_iff_iff, List.any_eq_true]
        constructor
        · rintro ⟨other, ho, hr⟩
          rcases List.mem_cons.mp ho with rfl | ho
          · exact hr
          · exact Hold.runsInto_of_le ((List.pairwise_cons.mp rest).1 other ho) hr
        · intro hr
          exact ⟨next, List.mem_cons_self, hr⟩
      unfold overlappingHits intoLater
      rw [next_stands, ih rest]
      split
      · rfl
      · rfl

/-- The holds that are found overlapping are all those that run into some later hold, and the
releases that are found hit are all those at some hit. -/
theorem checkHolds_all (hits : List Rat) (holds : List (Hold Rat)) :
    let ordered := sortBy Hold.precedes holds
    let found := (checkHolds hits holds).times
    ordered.Perm holds ∧
    (ordered.Pairwise fun a b => toLex (a.hit, a.release) ≤ toLex (b.hit, b.release)) ∧
    found .overlappingHold = sortedTimes ((intoLater ordered).map (·.hit)) ∧
    found .hitOnHoldRelease = sortedTimes
      ((holds.map (·.release)).filter fun t => hits.any (almostEqual · t)) := by
  intro ordered found
  have sorts : SortsByKey Hold.precedes (fun h : Hold Rat => toLex (h.hit, h.release)) holds :=
    fun a _ b _ => Hold.precedes_eq_toLex a b
  have sorted := pairwise_sortBy sorts
  have perm := sortBy_perm Hold.precedes holds
  refine ⟨perm, sorted, ?_, ?_⟩
  · have byHit : ordered.Pairwise fun a b => a.hit ≤ b.hit :=
      sorted.imp fun hab => (Prod.Lex.toLex_le_toLex.mp hab).elim le_of_lt fun h => h.1.le
    exact congrArg sortedTimes (overlappingHits_eq byHit)
  · have isHit (t : Rat) :
        (!(matching (ascending hits) t).isEmpty) = hits.any (almostEqual · t) := by
      rw [Bool.eq_iff_iff, Bool.not_eq_true', matching_isEmpty_eq_false_iff (pairwise_ascending _),
        List.any_eq_true]
      simp only [mem_ascending]
    show sortedTimes ((ordered.map (·.release)).filter _) = _
    simp only [isHit]
    exact sortedTimes_perm ((perm.map _).filter _)

end CueCheck
