import CueCheck.Beat.Check
import CueCheck.Proofs.Tolerance

/-!
# Every expected instant and every beat is accounted for

Over exact rationals, `checkBeats` neither loses nor invents an instant.

- **The ledger**: `IsHit` and `IsSkipped` say what the accepted beats do to an instant; `isIn_hits`,
  `isIn_skips` and `isIn_landings` tie the sorted lists of the check to them.
- **What is reported** (`mem_skippedHit`, `exists_skippedHit` and so on): a time is reported for a
  reason, and where there is a reason an equal time is.
- `checkBeats_accounts` puts both together.
-/

namespace CueCheck

open Scalar (less)

/-- The kind of finding that a verdict leads to, unless the beat is accepted. -/
def Verdict.findingKind? {α : Type} : Verdict α → Option FindingKind
  | .cued _ => none
  | .uncued => some .uncuedHit
  | .unexpectedShot .freeze => some .unexpectedFreezeshot
  | .unexpectedShot .burn => some .unexpectedBurnshot
  | .unexpectedSkipshot => some .unexpectedSkipshot
  | .overlappingSkipshot => some .overlappingSkipshot

variable {beats : List (Beat Rat)} {expected : List (ExpectedBeat Rat)}

/-- A beat that answers an expected instant, and may skip another. -/
def Beat.IsAccepted (beat : Beat Rat) (expected : List (ExpectedBeat Rat)) : Prop :=
  ∃ skips, beat.verdict expected = .cued skips

/-- Some accepted beat is at the time. -/
def IsHit (beats : List (Beat Rat)) (expected : List (ExpectedBeat Rat)) (t : Rat) : Prop :=
  ∃ a ∈ beats, a.IsAccepted expected ∧ almostEqual a.time t = true

/-- Some accepted skipshot skips the instant at the time. -/
def IsSkipped (beats : List (Beat Rat)) (expected : List (ExpectedBeat Rat)) (t : Rat) : Prop :=
  ∃ a ∈ beats, ∃ s, a.verdict expected = .cued (some s) ∧ almostEqual s t = true

/-! ## The ledger -/

section Verdicts

variable {α : Type} [Scalar α] {beats : List (Beat α)} {expected : List (ExpectedBeat α)}

theorem mem_accepted_iff {a : Beat α} :
    a ∈ Judged.accepted (Judged.ofBeats beats expected) ↔
      a ∈ beats ∧ ∃ skips, a.verdict expected = .cued skips := by
  unfold Judged.accepted Judged.ofBeats
  rw [mem_sortBy, List.filterMap_map, List.mem_filterMap]
  constructor
  · rintro ⟨b, hb, h⟩
    simp only [Function.comp_apply] at h
    split at h
    · rename_i skips hv
      cases h
      exact ⟨hb, skips, hv⟩
    · cases h
  · rintro ⟨ha, skips, hv⟩
    exact ⟨a, ha, by simp only [Function.comp_apply, hv]⟩

theorem mem_skips {s : α} :
    s ∈ Judged.skips (Judged.ofBeats beats expected) ↔
      ∃ a ∈ beats, a.verdict expected = .cued (some s) := by
  unfold Judged.skips Judged.ofBeats ascending
  rw [mem_sortBy, List.filterMap_map, List.mem_filterMap]
  constructor
  · rintro ⟨a, ha, h⟩
    simp only [Function.comp_apply] at h
    split at h
    · rename_i skips hv
      exact ⟨a, ha, by rw [hv, h]⟩
    · cases h
  · rintro ⟨a, ha, hv⟩
    exact ⟨a, ha, by simp only [Function.comp_apply, hv]⟩

theorem mem_timesOf {test : Verdict α → Bool} {t : α} :
    t ∈ Judged.timesOf test (Judged.ofBeats beats expected) ↔
      ∃ b ∈ beats, test (b.verdict expected) = true ∧ b.time = t := by
  unfold Judged.timesOf Judged.ofBeats
  simp only [List.mem_map, List.mem_filter]
  constructor
  · rintro ⟨j, ⟨⟨b, hb, rfl⟩, htest⟩, ht⟩
    exact ⟨b, hb, htest, ht⟩
  · rintro ⟨b, hb, htest, ht⟩
    exact ⟨_, ⟨⟨b, hb, rfl⟩, htest⟩, ht⟩

end Verdicts

theorem isIn_iff {times : List Rat} (h : times.Pairwise (· ≤ ·)) {t : Rat} :
    isIn times t = true ↔ ∃ u ∈ times, almostEqual u t = true := by
  unfold isIn
  rw [Bool.not_eq_true', matching_isEmpty_eq_false_iff h]

theorem mem_accepted {a : Beat Rat} :
    a ∈ Judged.accepted (Judged.ofBeats beats expected) ↔ a ∈ beats ∧ a.IsAccepted expected :=
  mem_accepted_iff

theorem pairwise_accepted (judged : List (Judged Rat)) :
    ((Judged.accepted judged).map (·.time)).Pairwise (· ≤ ·) := by
  rw [List.pairwise_map]
  exact pairwise_sortBy (sortsByKey_less Beat.time _)

theorem pairwise_skips (judged : List (Judged Rat)) : (Judged.skips judged).Pairwise (· ≤ ·) :=
  pairwise_ascending _

theorem exists_mem_map_accepted {f : Beat Rat → Rat} {t : Rat} :
    (∃ u ∈ (Judged.accepted (Judged.ofBeats beats expected)).map f, almostEqual u t = true) ↔
      ∃ a ∈ beats, a.IsAccepted expected ∧ almostEqual (f a) t = true := by
  constructor
  · rintro ⟨u, hu, ht⟩
    obtain ⟨a, ha, rfl⟩ := List.mem_map.mp hu
    obtain ⟨ha, hacc⟩ := mem_accepted.mp ha
    exact ⟨a, ha, hacc, ht⟩
  · rintro ⟨a, ha, hacc, ht⟩
    exact ⟨f a, List.mem_map_of_mem (mem_accepted.mpr ⟨ha, hacc⟩), ht⟩

theorem isIn_hits {t : Rat} :
    isIn ((Judged.accepted (Judged.ofBeats beats expected)).map (·.time)) t = true ↔
      IsHit beats expected t := by
  rw [isIn_iff (pairwise_accepted _)]
  exact exists_mem_map_accepted

theorem isIn_landings {t : Rat} :
    isIn (ascending ((Judged.accepted (Judged.ofBeats beats expected)).map (·.landing))) t = true ↔
      ∃ a ∈ beats, a.IsAccepted expected ∧ almostEqual a.landing t = true := by
  rw [isIn_iff (pairwise_ascending _), ← exists_mem_map_accepted]
  simp only [mem_ascending]

theorem isIn_skips {t : Rat} :
    isIn (Judged.skips (Judged.ofBeats beats expected)) t = true ↔ IsSkipped beats expected t := by
  rw [isIn_iff (pairwise_skips _)]
  constructor
  · rintro ⟨s, hs, ht⟩
    obtain ⟨a, ha, hv⟩ := mem_skips.mp hs
    exact ⟨a, ha, s, hv, ht⟩
  · rintro ⟨a, ha, s, hv, ht⟩
    exact ⟨s, mem_skips.mpr ⟨a, ha, hv⟩, ht⟩

/-! ## What is reported -/

/-- An instant is reported as skipped although hit for a reason, and no such instant is lost. -/
theorem mem_skippedHit {t : Rat} (h : t ∈ (checkBeats beats expected).times .skippedHit) :
    ∃ e ∈ expected, e.time = t ∧ IsHit beats expected t ∧ IsSkipped beats expected t := by
  have hm := mem_of_mem_sortedTimes h
  rw [List.mem_filter, List.mem_map, Bool.and_eq_true, isIn_hits, isIn_skips] at hm
  obtain ⟨⟨e, he, rfl⟩, hhit, hskip⟩ := hm
  exact ⟨e, he, rfl, hhit, hskip⟩

theorem exists_skippedHit {e : ExpectedBeat Rat} (he : e ∈ expected)
    (hhit : IsHit beats expected e.time) (hskip : IsSkipped beats expected e.time) :
    ∃ t ∈ (checkBeats beats expected).times .skippedHit, almostEqual t e.time = true := by
  refine exists_mem_sortedTimes (List.mem_filter.mpr ⟨List.mem_map_of_mem he, ?_⟩)
  rw [Bool.and_eq_true, isIn_hits, isIn_skips]
  exact ⟨hhit, hskip⟩

theorem mem_missingHit {t : Rat} (h : t ∈ (checkBeats beats expected).times .missingHit) :
    ∃ e ∈ expected, e.time = t ∧ ¬IsHit beats expected t ∧ ¬IsSkipped beats expected t := by
  have hm := mem_of_mem_sortedTimes h
  rw [List.mem_filter, List.mem_map, Bool.and_eq_true, Bool.not_eq_true', Bool.not_eq_true',
    ← Bool.not_eq_true, ← Bool.not_eq_true, isIn_hits, isIn_skips] at hm
  obtain ⟨⟨e, he, rfl⟩, hhit, hskip⟩ := hm
  exact ⟨e, he, rfl, hhit, hskip⟩

theorem exists_missingHit {e : ExpectedBeat Rat} (he : e ∈ expected)
    (hhit : ¬IsHit beats expected e.time) (hskip : ¬IsSkipped beats expected e.time) :
    ∃ t ∈ (checkBeats beats expected).times .missingHit, almostEqual t e.time = true := by
  refine exists_mem_sortedTimes (List.mem_filter.mpr ⟨List.mem_map_of_mem he, ?_⟩)
  rw [Bool.and_eq_true, Bool.not_eq_true', Bool.not_eq_true', ← Bool.not_eq_true,
    ← Bool.not_eq_true, isIn_hits, isIn_skips]
  exact ⟨hhit, hskip⟩

/-- A beat that is not accepted is reported under its verdict, or excused by a landing. -/
theorem exists_finding {b : Beat Rat} (hb : b ∈ beats) {kind : FindingKind}
    (hk : (b.verdict expected).findingKind? = some kind) :
    (∃ t ∈ (checkBeats beats expected).times kind, almostEqual t b.time = true) ∨
      (b.verdict expected = .uncued ∧
        ∃ a ∈ beats, a.IsAccepted expected ∧ almostEqual a.landing b.time = true) := by
  have listed {test : Verdict Rat → Bool} (ht : test (b.verdict expected) = true) :
      b.time ∈ Judged.timesOf test (Judged.ofBeats beats expected) :=
    mem_timesOf.mpr ⟨b, hb, ht, rfl⟩
  cases hv : b.verdict expected with
  | cued skips => rw [hv] at hk; cases hk
  | uncued =>
    rw [hv] at hk
    cases hk
    by_cases hl : ∃ a ∈ beats, a.IsAccepted expected ∧ almostEqual a.landing b.time = true
    · exact .inr ⟨rfl, hl⟩
    · refine .inl (exists_mem_sortedTimes (List.mem_filter.mpr ⟨listed (by rw [hv]), ?_⟩))
      rw [Bool.not_eq_true', ← Bool.not_eq_true, isIn_landings]
      exact hl
  | unexpectedShot shot =>
    rw [hv] at hk
    cases shot <;> cases hk <;> exact .inl (exists_mem_sortedTimes (listed (by rw [hv])))
  | unexpectedSkipshot =>
    rw [hv] at hk
    cases hk
    exact .inl (exists_mem_sortedTimes (listed (by rw [hv])))
  | overlappingSkipshot =>
    rw [hv] at hk
    cases hk
    exact .inl (exists_mem_sortedTimes (listed (by rw [hv])))

/-- Each expected instant is hit, skipped, both and reported, or neither and reported; nothing else
is reported of either kind; and each beat is accepted, reported under its verdict, or excused by
the landing of an accepted beat. -/
theorem checkBeats_accounts (beats : List (Beat Rat)) (expected : List (ExpectedBeat Rat)) :
    let found := (checkBeats beats expected).times
    -- Each expected instant is in exactly one of four cases.
    (∀ e ∈ expected,
      (IsHit beats expected e.time ∧ ¬IsSkipped beats expected e.time) ∨
      (¬IsHit beats expected e.time ∧ IsSkipped beats expected e.time) ∨
      (IsHit beats expected e.time ∧ IsSkipped beats expected e.time ∧
        ∃ t ∈ found .skippedHit, almostEqual t e.time = true) ∨
      (¬IsHit beats expected e.time ∧ ¬IsSkipped beats expected e.time ∧
        ∃ t ∈ found .missingHit, almostEqual t e.time = true)) ∧
    -- Only instants of the last two cases are reported.
    (∀ t ∈ found .skippedHit, ∃ e ∈ expected, e.time = t ∧
      IsHit beats expected t ∧ IsSkipped beats expected t) ∧
    (∀ t ∈ found .missingHit, ∃ e ∈ expected, e.time = t ∧
      ¬IsHit beats expected t ∧ ¬IsSkipped beats expected t) ∧
    -- No beat is lost.
    ∀ b ∈ beats, b.IsAccepted expected ∨
      (∃ kind, (b.verdict expected).findingKind? = some kind ∧
        ∃ t ∈ found kind, almostEqual t b.time = true) ∨
      (b.verdict expected = .uncued ∧
        ∃ a ∈ beats, a.IsAccepted expected ∧ almostEqual a.landing b.time = true) := by
  intro found
  refine ⟨fun e he => ?_, fun t => mem_skippedHit, fun t => mem_missingHit, fun b hb => ?_⟩
  · by_cases hhit : IsHit beats expected e.time <;>
      by_cases hskip : IsSkipped beats expected e.time
    · exact .inr (.inr (.inl ⟨hhit, hskip, exists_skippedHit he hhit hskip⟩))
    · exact .inl ⟨hhit, hskip⟩
    · exact .inr (.inl ⟨hhit, hskip⟩)
    · exact .inr (.inr (.inr ⟨hhit, hskip, exists_missingHit he hhit hskip⟩))
  · cases hk : (b.verdict expected).findingKind? with
    | none =>
      cases hv : b.verdict expected with
      | cued skips => exact .inl ⟨skips, hv⟩
      | unexpectedShot shot => rw [hv] at hk; cases shot <;> cases hk
      | _ => rw [hv] at hk; cases hk
    | some kind =>
      rcases exists_finding hb hk with h | h
      · exact .inr (.inl ⟨kind, rfl, h⟩)
      · exact .inr (.inr h)

end CueCheck
