import CueCheck.Proofs.Beat.Accounting
import CueCheck.Proofs.Binary64.Place
import CueCheck.Proofs.Sorting.Stable

/-!
# What excuses an uncued beat

A beat that answers no expected instant is not reported if an accepted beat lands at its time. The
landings of all accepted beats count, those of plain ones too, and a plain beat lands at its own
time.

- **Landings** (`almostEqual_landing`): a beat that is no shot lands where it is, up to the sign of
  a zero.
- **The excuse** (`checkBeats_excuse`): an uncued beat is left out for an accepted shot that lands
  at its time, or for an accepted plain beat at that time. The tolerance is not transitive, so the
  plain beat may answer an instant that the uncued one does not.
- **A plain beat suffices** (`checkBeats_excused_by_plain`): it hides a neighbour.
-/

namespace CueCheck

open Binary64
open Scalar (isFinite)

/-! ## Landings -/

/-- A beat that is no shot lands where it is. -/
theorem Beat.almostEqual_landing {a : Beat Float} (plain : a.shot? = none)
    (ha : isFinite a.time = true) {t : Float} (ht : isFinite t = true) :
    almostEqual a.landing t = almostEqual a.time t := by
  obtain ⟨p, hp⟩ := exists_exact_eq ha
  have landing : exact a.landing = .finite p := by
    unfold Beat.landing Beat.shift
    rw [plain]
    exact exact_add_zero hp
  have number := exact_ne_nan (isFinite_of_exact landing)
  exact almostEqual_congr number (exact_ne_nan ht) (exact_ne_nan ha) (exact_ne_nan ht)
    ((rank_eq_iff_exact number (exact_ne_nan ha)).mpr (landing.trans hp.symm)) rfl

/-! ## The excuse -/

section Verdicts

variable {α : Type} [Scalar α] {times : List α} {time : α} {beat : Beat α}
  {expected : List (ExpectedBeat α)}

theorem exists_almostEqual_of_isIn (h : isIn times time = true) :
    ∃ t ∈ times, almostEqual t time = true := by
  unfold isIn at h
  rw [Bool.not_eq_true', List.isEmpty_eq_false_iff_exists_mem] at h
  obtain ⟨i, hi⟩ := h
  have hi := (List.mem_filter.mp hi).2
  split at hi
  · rename_i t ht
    exact ⟨t, List.mem_of_getElem? ht, hi⟩
  · cases hi

theorem verdict_of_isEmpty (h : (expectedAt expected beat.time).isEmpty = true) :
    beat.verdict expected = .uncued := by
  unfold Beat.verdict
  simp only [h, ↓reduceIte]

/-- An accepted beat answers some expected instant. -/
theorem exists_almostEqual_of_verdict {skips : Option α}
    (h : beat.verdict expected = .cued skips) :
    ∃ e ∈ expected, almostEqual e.time beat.time = true := by
  have answered : isIn (expected.map (·.time)) beat.time = true := by
    unfold isIn
    rw [Bool.not_eq_true']
    by_contra none
    rw [Bool.not_eq_false, List.isEmpty_iff] at none
    unfold Beat.verdict expectedAt at h
    simp [none] at h
  obtain ⟨t, ht, near⟩ := exists_almostEqual_of_isIn answered
  obtain ⟨e, he, rfl⟩ := List.mem_map.mp ht
  exact ⟨e, he, near⟩

end Verdicts

section Reported

variable {beats : List (Beat Float)} {expected : List (ExpectedBeat Float)} {b : Beat Float}

/-- An uncued beat is reported unless an accepted beat lands at its time. -/
theorem exists_uncuedHit (finite : ∀ b ∈ beats, isFinite b.time = true) (hb : b ∈ beats)
    (uncued : b.verdict expected = .uncued)
    (alone : ∀ a ∈ beats, ∀ skips, a.verdict expected = .cued skips →
      almostEqual a.landing b.time = false) :
    ∃ t ∈ (checkBeats beats expected).times .uncuedHit, almostEqual t b.time = true := by
  have unexcused : isIn (ascending ((Judged.accepted (Judged.ofBeats beats expected)).map
      (·.landing))) b.time = false := by
    by_contra landed
    obtain ⟨t, ht, near⟩ := exists_almostEqual_of_isIn (Bool.not_eq_false _ ▸ landed)
    obtain ⟨a, ha, rfl⟩ := List.mem_map.mp (mem_ascending.mp ht)
    obtain ⟨ha, skips, accepted⟩ := mem_accepted_iff.mp ha
    rw [alone a ha skips accepted] at near
    cases near
  have listed {test : Verdict Float → Bool} (ht : test (b.verdict expected) = true) :
      b.time ∈ Judged.timesOf test (Judged.ofBeats beats expected) :=
    mem_timesOf.mpr ⟨b, hb, ht, rfl⟩
  refine exists_mem_collapseBy (fun t ht => ?_) (mem_ascending.mpr
    (List.mem_filter.mpr ⟨listed (by rw [uncued]), by rw [unexcused]; rfl⟩))
  -- What is listed are times of beats, and finite times equal themselves.
  obtain ⟨c, hc, -, rfl⟩ := mem_timesOf.mp (List.mem_of_mem_filter (mem_ascending.mp ht))
  exact almostEqual_self_of_isFinite (finite c hc)

/-- An uncued beat that is not reported is excused by an accepted beat: by a shot that lands at its
time, or by a plain beat at that time, which answers an expected instant. -/
theorem checkBeats_excuse (beats : List (Beat Float)) (expected : List (ExpectedBeat Float))
    (finite : ∀ b ∈ beats, isFinite b.time = true) :
    ∀ b ∈ beats, b.verdict expected = .uncued →
      (∀ t ∈ (checkBeats beats expected).times .uncuedHit, almostEqual t b.time = false) →
      ∃ a ∈ beats, (∃ skips, a.verdict expected = .cued skips) ∧
        ((a.shot?.isSome = true ∧ almostEqual a.landing b.time = true) ∨
          (a.shot? = none ∧ almostEqual a.time b.time = true ∧
            ∃ e ∈ expected, almostEqual e.time a.time = true)) := by
  intro b hb uncued unreported
  by_contra unexcused
  obtain ⟨t, ht, near⟩ := exists_uncuedHit finite hb uncued fun a ha skips accepted => by
    by_contra near
    rw [Bool.not_eq_false] at near
    refine unexcused ⟨a, ha, ⟨skips, accepted⟩, ?_⟩
    cases shot : a.shot? with
    | some _ => exact .inl ⟨rfl, near⟩
    | none =>
      rw [Beat.almostEqual_landing shot (finite a ha) (finite b hb)] at near
      exact .inr ⟨rfl, near, exists_almostEqual_of_verdict accepted⟩
  rw [unreported t ht] at near
  cases near

end Reported

/-- A freezeshot at 6 lands on a plain beat at 7, which answers no instant. -/
theorem checkBeats_excuse_freezeshot :
    let expected : List (ExpectedBeat Float) := [⟨5, none, some 6⟩, ⟨6, some 5, none⟩]
    let shot : Beat Float := { time := 6, shot? := some ⟨.freeze, 2, 1⟩ }
    let plain : Beat Float := { time := 7 }
    (∀ b ∈ [shot, plain], isFinite b.time = true) ∧
      plain.verdict expected = .uncued ∧
      (∀ t ∈ (checkBeats [shot, plain] expected).times .uncuedHit,
        almostEqual t plain.time = false) ∧
      ∃ a ∈ [shot, plain], (∃ skips, a.verdict expected = .cued skips) ∧
        ((a.shot?.isSome = true ∧ almostEqual a.landing plain.time = true) ∨
          (a.shot? = none ∧ almostEqual a.time plain.time = true ∧
            ∃ e ∈ expected, almostEqual e.time a.time = true)) := by
  intro expected shot plain
  have finite : ∀ b ∈ [shot, plain], isFinite b.time = true := by decide +kernel
  have uncued : plain.verdict expected = .uncued := verdict_of_isEmpty (by decide +kernel)
  have unreported : ∀ t ∈ (checkBeats [shot, plain] expected).times .uncuedHit,
      almostEqual t plain.time = false := by
    unfold checkBeats Judged.accepted sortedTimes ascending
    simp only [sortBy_eq_sorted]
    decide +kernel
  exact ⟨finite, uncued, unreported,
    checkBeats_excuse _ _ finite plain (by simp) uncued unreported⟩

/-- A plain beat 1/512 after the instant at 4 hides another one 1/512 later, which answers no
instant. -/
theorem checkBeats_excused_by_plain :
    let expected : List (ExpectedBeat Float) := [⟨4, none, none⟩]
    let first : Beat Float := { time := .ofBits 0x4010020000000000 }
    let second : Beat Float := { time := .ofBits 0x4010040000000000 }
    second.verdict expected = .uncued ∧
      (checkBeats [first, second] expected).times .uncuedHit = [] ∧
      (∀ b ∈ [first, second], isFinite b.time = true) ∧
      ∀ a ∈ [first, second], a.shot?.isNone = true := by
  refine ⟨verdict_of_isEmpty (by decide +kernel), ?_, by decide +kernel, by decide +kernel⟩
  unfold checkBeats Judged.accepted sortedTimes ascending
  simp only [sortBy_eq_sorted]
  decide +kernel

end CueCheck
