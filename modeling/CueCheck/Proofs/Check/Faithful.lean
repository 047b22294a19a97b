import CueCheck.Check
import CueCheck.Proofs.Beat.Accounting
import CueCheck.Proofs.Cue.Order

/-!
# A level that plays what its cues ask for

Over exact rationals, a level of plain beats that has a beat at every expected instant, and none
elsewhere, is reported for its invalid cues at most.

- **Order** (`pairwise_expected`): expected beats are reported in ascending order of time, which the
  lookups rely on.
- **Plain beats** (`verdict_of_isPlain`): a plain beat at an expected instant is accepted and skips
  nothing. So no pair of them disagrees (`overlaps_eq_nil`).
- **The result** (`check_of_faithful`).
-/

namespace CueCheck

/-! ## The order of expected beats -/

theorem ranksFinite_id : RanksFinite (id : Rat → Rat) where
  less_eq _ _ := rfl
  beq_eq {x y} _ _ := by
    rw [Bool.eq_iff_iff, beq_iff_eq, decide_eq_true_iff]
    exact Iff.rfl

theorem isFinite_of_rat (beat : ExpectedBeat Rat) : beat.IsFinite :=
  ⟨rfl, fun _ _ => rfl, fun _ _ => rfl⟩

/-- Expected beats come in ascending order of time. -/
theorem pairwise_expected (options : Options) (cues : List (Cue Rat)) :
    ((play options cues).expected.map (·.time)).Pairwise (· ≤ ·) := by
  have sorts (beats : List (ExpectedBeat Rat)) :
      SortsByKey ExpectedBeat.precedes (beatKey (id : Rat → Rat)) beats := fun a _ b _ =>
    precedes_eq_beatKey ranksFinite_id (isFinite_of_rat a) (isFinite_of_rat b)
  rw [List.pairwise_map]
  refine List.Pairwise.sublist (collapseBy_sublist _) ?_
  exact (pairwise_sortBy (sorts _)).imp time_le_of_beatKey_le

/-! ## Plain beats -/

/-- Neither a skipshot nor a shot. -/
structure Beat.IsPlain {α : Type} (beat : Beat α) : Prop where
  skipshot_eq : beat.skipshot = false
  shot?_eq : beat.shot? = none

section Expected

variable {beats : List (Beat Rat)} {expected : List (ExpectedBeat Rat)}

/-- The lookup finds the expected beats at a time, and no others. -/
theorem expectedAt_eq_filter (ascending : (expected.map (·.time)).Pairwise (· ≤ ·)) (t : Rat) :
    expectedAt expected t = expected.filter (almostEqual ·.time t) := by
  refine filterMap_getElem?_eq_filter (ordered_matching _ _) fun i => ?_
  rw [mem_matching ascending, List.getElem?_map]
  simp only [Option.map_eq_some_iff, exists_exists_and_eq_and]

/-- A plain beat at an expected instant is accepted and skips nothing. -/
theorem verdict_of_isPlain (ascending : (expected.map (·.time)).Pairwise (· ≤ ·)) {beat : Beat Rat}
    (plain : beat.IsPlain) {e : ExpectedBeat Rat} (he : e ∈ expected)
    (ha : almostEqual e.time beat.time = true) : beat.verdict expected = .cued none := by
  have found : (expectedAt expected beat.time).isEmpty = false := by
    rw [expectedAt_eq_filter ascending]
    exact List.isEmpty_eq_false_iff_exists_mem.mpr ⟨e, List.mem_filter.mpr ⟨he, ha⟩⟩
  unfold Beat.verdict
  simp only [found, plain.shot?_eq, plain.skipshot_eq, Option.filter_none, Bool.false_eq_true,
    ↓reduceIte]

/-- Beats that are no shots land at their own times, so they do not disagree. -/
theorem overlaps_eq_nil {accepted : List (Beat Rat)} (h : ∀ b ∈ accepted, b.shot? = none)
    (kind : ShotKind) : overlaps accepted kind = [] := by
  have shift_eq {b : Beat Rat} (hb : b ∈ accepted) : b.shift = Scalar.zero := by
    rw [Beat.shift, h b hb]
  unfold overlaps
  rw [List.flatMap_eq_nil_iff]
  intro b hb
  rw [List.filterMap_eq_nil_iff]
  intro other ho
  obtain ⟨i, -, hi⟩ := List.mem_filterMap.mp ho
  rw [shift_eq hb, shift_eq (List.mem_of_getElem? hi), almostEqual_self, if_pos rfl]

theorem timesOf_eq_nil (accepted : ∀ b ∈ beats, b.verdict expected = .cued none)
    {test : Verdict Rat → Bool} (ht : test (.cued none) = false) :
    Judged.timesOf test (Judged.ofBeats beats expected) = [] := by
  refine List.eq_nil_iff_forall_not_mem.mpr fun t hm => ?_
  obtain ⟨b, hb, hv, -⟩ := mem_timesOf.mp hm
  rw [accepted b hb, ht] at hv
  cases hv

/-- Nothing is wrong with plain beats that are all accepted and hit every expected instant. -/
theorem checkBeats_eq_nil (plain : ∀ b ∈ beats, b.IsPlain)
    (accepted : ∀ b ∈ beats, b.verdict expected = .cued none)
    (hit : ∀ e ∈ expected, IsHit beats expected e.time) (kind : FindingKind) :
    (checkBeats beats expected).times kind = [] := by
  have unaccepted {test : Verdict Rat → Bool} (ht : test (.cued none) = false) :
      sortedTimes (Judged.timesOf test (Judged.ofBeats beats expected)) = [] := by
    rw [timesOf_eq_nil accepted ht, sortedTimes_nil]
  have disagreeing (shot : ShotKind) :
      sortedTimes (overlaps (Judged.accepted (Judged.ofBeats beats expected)) shot) = [] := by
    rw [overlaps_eq_nil fun b hb => (plain b (mem_accepted.mp hb).1).shot?_eq, sortedTimes_nil]
  cases kind with
  | unexpectedSkipshot => exact unaccepted rfl
  | overlappingSkipshot => exact unaccepted rfl
  | unexpectedFreezeshot => exact unaccepted rfl
  | unexpectedBurnshot => exact unaccepted rfl
  | overlappingFreezeshot => exact disagreeing .freeze
  | overlappingBurnshot => exact disagreeing .burn
  | uncuedHit =>
    show sortedTimes ((Judged.timesOf _ _).filter _) = []
    rw [timesOf_eq_nil accepted rfl, List.filter_nil, sortedTimes_nil]
  | skippedHit =>
    refine List.eq_nil_iff_forall_not_mem.mpr fun t ht => ?_
    obtain ⟨e, -, -, -, a, ha, s, hs, -⟩ := mem_skippedHit ht
    rw [accepted a ha] at hs
    cases hs
  | missingHit =>
    refine List.eq_nil_iff_forall_not_mem.mpr fun t ht => ?_
    obtain ⟨e, he, rfl, hmiss, -⟩ := mem_missingHit ht
    exact hmiss (hit e he)
  | invalidCue => exact sortedTimes_nil
  | hitOnHoldRelease => exact sortedTimes_nil
  | overlappingHold => exact sortedTimes_nil

end Expected

/-! ## The result -/

theorem Playback.findings_of_ne {playback : Playback Rat} {kind : FindingKind}
    (h : kind ≠ .invalidCue) : playback.findings.times kind = [] := by
  cases kind with
  | invalidCue => exact absurd rfl h
  | _ => rfl

theorem checkHolds_nil (hits : List Rat) (kind : FindingKind) :
    (checkHolds hits []).times kind = [] := by
  unfold checkHolds sortBy
  rw [List.mergeSort_nil]
  cases kind with
  | hitOnHoldRelease => exact sortedTimes_nil
  | overlappingHold => exact sortedTimes_nil
  | _ => rfl

/-- Plain beats at all expected instants and nowhere else leave nothing to report but invalid
cues. -/
theorem check_of_faithful (options : Options) (cues : List (Cue Rat)) (beats : List (Beat Rat))
    (hits : Option (List Rat)) (plain : ∀ b ∈ beats, b.IsPlain)
    (cued : ∀ b ∈ beats, ∃ e ∈ (play options cues).expected, almostEqual b.time e.time = true)
    (played : ∀ e ∈ (play options cues).expected, ∃ b ∈ beats, almostEqual e.time b.time = true)
    {kind : FindingKind} (hk : kind ≠ .invalidCue) :
    (check options cues beats [] hits).findings.times kind = [] := by
  have accepted : ∀ b ∈ beats, b.verdict (play options cues).expected = .cued none := by
    intro b hb
    obtain ⟨e, he, ha⟩ := cued b hb
    rw [almostEqual_comm] at ha
    exact verdict_of_isPlain (pairwise_expected options cues) (plain b hb) he ha
  have hit : ∀ e ∈ (play options cues).expected,
      IsHit beats (play options cues).expected e.time := by
    intro e he
    obtain ⟨b, hb, ha⟩ := played e he
    rw [almostEqual_comm] at ha
    exact ⟨b, hb, ⟨none, accepted b hb⟩, ha⟩
  unfold check
  rw [Findings.times_append, Findings.times_append, Playback.findings_of_ne hk,
    checkBeats_eq_nil plain accepted hit, checkHolds_nil]
  rfl

/-- Two voices meet at 5, where one of two beats comes a little late; a third voice has no pattern
for its pulse, which is all that is reported. -/
theorem check_of_faithful_three_voices :
    let cues : List (Cue Rat) :=
      [⟨0, .get, .nurse⟩, ⟨1, .set, .nurse⟩, ⟨2, .go, .nurse⟩, ⟨2, .set, .ian⟩, ⟨3, .pulse 2, .ian⟩,
        ⟨4, .pulse 1, "third"⟩, ⟨6, .stop, .nurse⟩]
    let beats : List (Beat Rat) :=
      [{ time := 3 }, { time := 4 }, { time := 5 }, { time := 5001 / 1000 }]
    (∀ b ∈ beats, b.IsPlain) ∧
      (∀ b ∈ beats, ∃ e ∈ (play {} cues).expected, almostEqual b.time e.time = true) ∧
      (∀ e ∈ (play {} cues).expected, ∃ b ∈ beats, almostEqual e.time b.time = true) ∧
      (check {} cues beats [] none).findings.times .invalidCue = [4] ∧
      (check {} cues beats [] none).findings.times .missingHit = [] := by
  intro cues beats
  have expected_eq : (play {} cues).expected =
      [{ time := 3, next := some 5 }, { time := 4 }, { time := 5 },
        { time := 5, prev := some 3, next := some 7 }] := by cbv
  have plain : ∀ b ∈ beats, b.IsPlain := by
    intro b hb
    simp only [beats, List.mem_cons, List.not_mem_nil, or_false] at hb
    rcases hb with rfl | rfl | rfl | rfl <;> exact ⟨rfl, rfl⟩
  have cued : ∀ b ∈ beats, ∃ e ∈ (play {} cues).expected, almostEqual b.time e.time = true := by
    rw [expected_eq]
    decide +kernel
  have played : ∀ e ∈ (play {} cues).expected, ∃ b ∈ beats, almostEqual e.time b.time = true := by
    rw [expected_eq]
    decide +kernel
  have invalid : (check {} cues beats [] none).findings.times .invalidCue = [4] := by cbv
  exact ⟨plain, cued, played, invalid,
    check_of_faithful {} cues beats none plain cued played (by decide)⟩

end CueCheck
