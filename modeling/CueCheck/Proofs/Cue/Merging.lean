import CueCheck.Proofs.Binary64.Place
import CueCheck.Proofs.Cue.Order
import CueCheck.Proofs.Cue.Origin
import CueCheck.Proofs.Sorting.Stable

/-!
# Merging loses no expected beat

The beats of all runs and pulses are sorted, and each that is the same as the one kept last before
it is dropped. The comparison is up to tolerance, so it is not transitive; but what is dropped is
compared with what is kept, and no further.

- **Keys** (`ranksFinite_place`): finite beats are sorted by the places of their times.
- **Sameness** (`ExpectedBeat.same_iff`, `ExpectedBeat.same_self`): by the time and by each of the
  neighbours; every finite beat is the same as itself.
- **The result** (`play_merges`): what is played ascends, was asked for, and covers all that was.
-/

namespace CueCheck

open Binary64
open Scalar (isFinite)

/-! ## Keys -/

/-- The place of a finite number on the number line is a rank of it. -/
theorem ranksFinite_place : RanksFinite fun t : Float => (Scalar.exact t).place where
  less_eq hx hy := less_eq_place (exact_ne_nan hx) (exact_ne_nan hy)
  beq_eq hx hy := by
    rw [beq_eq_exact (exact_ne_nan hx) (exact_ne_nan hy), decide_eq_decide]
    exact Extended.place_injective.eq_iff.symm

namespace ExpectedBeat

/-! ## Sameness -/

theorem sameNeighbour_iff {α : Type} [Scalar α] {a b : Option α} :
    sameNeighbour a b = true ↔ Option.Rel (almostEqual · · = true) a b := by
  cases a <;> cases b <;> simp [sameNeighbour]

theorem same_iff {α : Type} [Scalar α] {a b : ExpectedBeat α} : a.same b = true ↔
    almostEqual a.time b.time = true ∧ Option.Rel (almostEqual · · = true) a.prev b.prev ∧
      Option.Rel (almostEqual · · = true) a.next b.next := by
  unfold same
  rw [Bool.and_eq_true, Bool.and_eq_true, sameNeighbour_iff, sameNeighbour_iff, and_assoc]

theorem rel_almostEqual_self {t : Option Float} (h : ∀ x ∈ t, isFinite x = true) :
    Option.Rel (almostEqual · · = true) t t := by
  cases t with
  | none => exact .none
  | some x => exact .some (almostEqual_self_of_isFinite (h x rfl))

theorem same_self {beat : ExpectedBeat Float} (h : beat.IsFinite) : beat.same beat = true :=
  same_iff.mpr ⟨almostEqual_self_of_isFinite h.time, rel_almostEqual_self h.prev,
    rel_almostEqual_self h.next⟩

end ExpectedBeat

/-! ## The result -/

/-- What is played stands in order by time, next beat and beat before. The cues ask for all of it,
and for each beat that they ask for, one is played that equals it up to tolerance, with its
neighbours. -/
theorem play_merges (options : Options) (cues : List (Cue Float))
    (projected : ∀ cue beat, AsksFor options cues cue beat → beat.IsFinite) :
    ((play options cues).expected.Pairwise fun a b =>
      beatKey (fun t => (Scalar.exact t).place) a ≤ beatKey (fun t => (Scalar.exact t).place) b) ∧
    (∀ beat ∈ (play options cues).expected, ∃ cue, AsksFor options cues cue beat) ∧
    ∀ cue beat, AsksFor options cues cue beat → ∃ kept ∈ (play options cues).expected,
      almostEqual kept.time beat.time = true ∧
        Option.Rel (almostEqual · · = true) kept.prev beat.prev ∧
        Option.Rel (almostEqual · · = true) kept.next beat.next := by
  have finite : ∀ beat ∈ (emissions options .silent cues).beats, beat.IsFinite := by
    intro beat hb
    obtain ⟨cue, h⟩ := exists_asksFor hb
    exact projected cue beat h
  refine ⟨?_, fun beat hb => ?_, fun cue beat h => ?_⟩
  · have sorts : SortsByKey ExpectedBeat.precedes (beatKey fun t => (Scalar.exact t).place)
        (emissions options .silent cues).beats := fun a ha b hb =>
      precedes_eq_beatKey ranksFinite_place (finite a ha) (finite b hb)
    exact (pairwise_sortBy sorts).sublist (collapseBy_sublist _)
  · exact exists_asksFor (mem_sortBy.mp (mem_of_mem_collapseBy hb))
  · have refl : ∀ b ∈ sortBy ExpectedBeat.precedes (emissions options .silent cues).beats,
        b.same b = true := fun b hb => ExpectedBeat.same_self (finite b (mem_sortBy.mp hb))
    obtain ⟨kept, hk, hs⟩ := exists_mem_collapseBy refl (mem_sortBy.mpr h.mem_beats)
    exact ⟨kept, hk, ExpectedBeat.same_iff.mp hs⟩

/-- Two voices run one pattern, one of them late by less than the tolerance. -/
theorem play_merges_two_runs :
    let early : List (Cue Float) :=
      [⟨100, .get, .nurse⟩, ⟨101, .set, .nurse⟩, ⟨102, .go, .nurse⟩, ⟨105, .stop, .nurse⟩]
    let late : List (Cue Float) := early.map fun cue =>
      { cue with time := cue.time + Float.ofBits 0x3F80000000000000, voice := .ian }
    (∀ cue beat, AsksFor {} (early ++ late) cue beat → beat.IsFinite) ∧
      (emissions {} .silent (early ++ late)).beats.length = 4 ∧
      (play {} (early ++ late)).expected.length = 2 ∧
      ∀ beat ∈ (emissions {} .silent (early ++ late)).beats,
        ∃ kept ∈ (play {} (early ++ late)).expected, almostEqual kept.time beat.time = true := by
  intro early late
  have finite : ∀ beat ∈ (emissions {} .silent (early ++ late)).beats, beat.IsFinite := by
    decide +kernel
  have projected : ∀ cue beat, AsksFor {} (early ++ late) cue beat → beat.IsFinite :=
    fun cue beat h => finite beat h.mem_beats
  have played : (play {} (early ++ late)).expected.length = 2 := by
    unfold play Playback.ofEmission
    rw [sortBy_eq_sorted]
    decide +kernel
  refine ⟨projected, by decide +kernel, played, fun beat hb => ?_⟩
  obtain ⟨cue, h⟩ := exists_asksFor hb
  obtain ⟨kept, hk, hs, -, -⟩ := (play_merges {} _ projected).2.2 cue beat h
  exact ⟨kept, hk, hs⟩

end CueCheck
