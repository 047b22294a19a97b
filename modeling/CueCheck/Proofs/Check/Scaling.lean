import CueCheck.Check
import CueCheck.Proofs.Cue.Scaling

/-!
# A level in another unit

Over exact rationals, a level whose times are measured in another unit is found to have the same
faults, at the same times in that unit.

- **Verdicts** (`Beat.verdict_scale`): a beat is judged alike, and what it skips is scaled.
- **Beats** (`checkBeats_scale`) and **holds** (`checkHolds_scale`): each list of findings is a
  filtered list of scaled times.
- **The result** (`check_scale`).
-/

namespace CueCheck

open Scalar (less)

/-! ## Records with other times -/

section Map

variable {α β : Type}

/-- A shot with another reading of its interval and delay. -/
def Shot.map (f : α → β) (shot : Shot α) : Shot β where
  kind := shot.kind
  interval := f shot.interval
  delay := f shot.delay

/-- A beat with another reading of its times. -/
def Beat.map (f : α → β) (beat : Beat α) : Beat β where
  time := f beat.time
  skipshot := beat.skipshot
  shot? := beat.shot?.map (·.map f)

/-- A hold with another reading of its times. -/
def Hold.map (f : α → β) (hold : Hold α) : Hold β :=
  ⟨f hold.hit, f hold.release⟩

/-- A verdict with another reading of the instant that is skipped. -/
def Verdict.map (f : α → β) : Verdict α → Verdict β
  | .cued skips => .cued (skips.map f)
  | .uncued => .uncued
  | .unexpectedShot kind => .unexpectedShot kind
  | .unexpectedSkipshot => .unexpectedSkipshot
  | .overlappingSkipshot => .overlappingSkipshot

/-- A judged beat with another reading of its times. -/
def Judged.map (f : α → β) (judged : Judged α) : Judged β :=
  ⟨judged.beat.map f, judged.verdict.map f⟩

/-- Findings with another reading of the times. -/
def Findings.map (f : α → β) (findings : Findings α) : Findings β :=
  ⟨fun kind => (findings.times kind).map f⟩

theorem Findings.map_append (f : α → β) (a b : Findings α) :
    (a ++ b).map f = a.map f ++ b.map f :=
  congrArg Findings.mk (funext fun _ => List.map_append)

/-- The outcome of a check with another reading of its times. -/
def CheckResult.map (f : α → β) (result : CheckResult α) : CheckResult β where
  findings := result.findings.map f
  expected := result.expected.map (·.map f)

end Map

variable {c : Rat}

/-! ## Verdicts -/

theorem ExpectedBeat.map_time_scale (expected : List (ExpectedBeat Rat)) :
    (expected.map (·.map (c * ·))).map (·.time) = (expected.map (·.time)).map (c * ·) := by
  refine map_map_comm (fun _ => ?_) expected
  rfl

theorem expectedAt_scale (hc : 0 < c) (expected : List (ExpectedBeat Rat)) (time : Rat) :
    expectedAt (expected.map (·.map (c * ·))) (c * time) =
      (expectedAt expected time).map (·.map (c * ·)) := by
  unfold expectedAt
  rw [ExpectedBeat.map_time_scale, matching_scale hc, List.map_filterMap]
  simp only [List.getElem?_map]

namespace Beat

theorem shift_scale (beat : Beat Rat) : (beat.map (c * ·)).shift = c * beat.shift := by
  obtain ⟨time, skipshot, shot?⟩ := beat
  match shot? with
  | none => exact (mul_zero c).symm
  | some ⟨.freeze, _, _⟩ => rfl
  | some ⟨.burn, _, delay⟩ => exact (mul_neg c delay).symm

theorem landing_scale (beat : Beat Rat) : (beat.map (c * ·)).landing = c * beat.landing := by
  show c * beat.time + (beat.map (c * ·)).shift = c * (beat.time + beat.shift)
  rw [shift_scale, mul_add]

theorem map_time_scale (beats : List (Beat Rat)) :
    (beats.map (·.map (c * ·))).map (·.time) = (beats.map (·.time)).map (c * ·) := by
  refine map_map_comm (fun _ => ?_) beats
  rfl

theorem map_landing_scale (beats : List (Beat Rat)) :
    (beats.map (·.map (c * ·))).map (·.landing) = (beats.map (·.landing)).map (c * ·) :=
  map_map_comm landing_scale beats

theorem pulseIsCued_scale (hc : 0 < c) (beat : Beat Rat) (shot : Shot Rat)
    (found : List (ExpectedBeat Rat)) :
    (beat.map (c * ·)).pulseIsCued (shot.map (c * ·)) (found.map (·.map (c * ·))) =
      beat.pulseIsCued shot found := by
  have pulse : (beat.map (c * ·)).landing - (shot.map (c * ·)).interval =
      c * (beat.landing - shot.interval) := by
    rw [landing_scale, mul_sub]
    rfl
  unfold pulseIsCued
  rw [pulse, List.any_map]
  congr 1
  funext e
  obtain ⟨time, prev, next⟩ := e
  cases prev with
  | none => rfl
  | some t => exact almostEqual_scale hc t _

theorem skipVerdict_scale (hc : 0 < c) (found : List (ExpectedBeat Rat)) :
    skipVerdict (found.map (·.map (c * ·))) = (skipVerdict found).map (c * ·) := by
  have following : (found.map (·.map (c * ·))).filterMap (·.next) =
      (found.filterMap (·.next)).map (c * ·) := by
    rw [List.filterMap_map, List.map_filterMap]
    rfl
  unfold skipVerdict
  rw [following]
  cases found.filterMap (·.next) with
  | nil => rfl
  | cons first others =>
    have agree : ((first :: others).map (c * ·)).all (almostEqual (c * first)) =
        (first :: others).all (almostEqual first) := by
      rw [List.all_map]
      congr 1
      funext t
      exact almostEqual_scale hc first t
    show (if ((first :: others).map (c * ·)).all (almostEqual (c * first)) = true then _ else _) = _
    rw [agree]
    simp only
    split <;> rfl

/-- A beat is judged alike in another unit. -/
theorem verdict_scale (hc : 0 < c) (beat : Beat Rat) (expected : List (ExpectedBeat Rat)) :
    (beat.map (c * ·)).verdict (expected.map (·.map (c * ·))) =
      (beat.verdict expected).map (c * ·) := by
  have stray : (beat.map (c * ·)).shot?.filter
        (!(beat.map (c * ·)).pulseIsCued · ((expectedAt expected beat.time).map (·.map (c * ·)))) =
      (beat.shot?.filter (!beat.pulseIsCued · (expectedAt expected beat.time))).map
        (·.map (c * ·)) := by
    show (beat.shot?.map (·.map (c * ·))).filter _ = _
    cases beat.shot? with
    | none => rfl
    | some shot =>
      simp only [Option.map_some, Option.filter_some, pulseIsCued_scale hc]
      split <;> rfl
  have at_ : expectedAt (expected.map (·.map (c * ·))) (beat.map (c * ·)).time =
      (expectedAt expected beat.time).map (·.map (c * ·)) := expectedAt_scale hc expected beat.time
  unfold verdict
  simp only [at_, List.isEmpty_map, stray]
  split
  · rfl
  cases beat.shot?.filter (!beat.pulseIsCued · (expectedAt expected beat.time)) with
  | some shot => rfl
  | none =>
    show (if beat.skipshot = true then skipVerdict _ else _) =
      Verdict.map _ (if beat.skipshot = true then _ else _)
    rw [skipVerdict_scale hc]
    split <;> rfl

end Beat

/-! ## Beats -/

namespace Judged

theorem ofBeats_scale (hc : 0 < c) (beats : List (Beat Rat)) (expected : List (ExpectedBeat Rat)) :
    ofBeats (beats.map (·.map (c * ·))) (expected.map (·.map (c * ·))) =
      (ofBeats beats expected).map (·.map (c * ·)) := by
  refine map_map_comm (fun beat => ?_) beats
  exact congrArg (mk _) (beat.verdict_scale hc expected)

theorem accepted_scale (hc : 0 < c) (judged : List (Judged Rat)) :
    accepted (judged.map (·.map (c * ·))) = (accepted judged).map (·.map (c * ·)) := by
  have sorted (beats : List (Beat Rat)) :
      sortBy (fun a b => less a.time b.time) (beats.map (·.map (c * ·))) =
        (sortBy (fun a b => less a.time b.time) beats).map (·.map (c * ·)) :=
    sortBy_map (fun a b => less_scale hc a.time b.time) beats
  unfold accepted
  rw [← sorted, List.filterMap_map, List.map_filterMap]
  congr 2
  funext j
  obtain ⟨beat, verdict⟩ := j
  cases verdict <;> rfl

theorem skips_scale (hc : 0 < c) (judged : List (Judged Rat)) :
    skips (judged.map (·.map (c * ·))) = (skips judged).map (c * ·) := by
  unfold skips
  rw [← ascending_scale hc, List.filterMap_map, List.map_filterMap]
  congr 2
  funext j
  obtain ⟨beat, verdict⟩ := j
  cases verdict <;> rfl

theorem timesOf_scale {test : Verdict Rat → Bool} (h : ∀ v, test (v.map (c * ·)) = test v)
    (judged : List (Judged Rat)) :
    timesOf test (judged.map (·.map (c * ·))) = (timesOf test judged).map (c * ·) := by
  have passes : (fun j : Judged Rat => test j.verdict) ∘ (map (c * ·)) = (test ·.verdict) := by
    funext j
    exact h j.verdict
  unfold timesOf
  rw [List.filter_map, passes]
  refine map_map_comm (fun _ => ?_) _
  rfl

end Judged

theorem overlapKind_map {α β : Type} [Scalar α] [Scalar β] (f : α → β) (a b : Beat α) :
    overlapKind (a.map f) (b.map f) = overlapKind a b := by
  obtain ⟨_, _, shot?⟩ := a
  obtain ⟨_, _, shot'?⟩ := b
  cases shot? <;> cases shot'? <;> rfl

theorem overlaps_scale (hc : 0 < c) (accepted : List (Beat Rat)) (kind : ShotKind) :
    overlaps (accepted.map (·.map (c * ·))) kind = (overlaps accepted kind).map (c * ·) := by
  unfold overlaps
  simp only [Beat.map_time_scale, List.flatMap_map, List.map_flatMap]
  congr 1
  funext beat
  show List.filterMap _ ((matching _ (c * beat.time)).filterMap _) = _
  rw [matching_scale hc, List.map_filterMap]
  simp only [List.getElem?_map]
  rw [← List.map_filterMap, List.filterMap_map]
  congr 1
  funext other
  simp only [Function.comp_apply, Beat.shift_scale, almostEqual_scale hc, overlapKind_map]
  split
  · rfl
  · split <;> rfl

/-- The findings about beats are scaled. -/
theorem checkBeats_scale (hc : 0 < c) (beats : List (Beat Rat))
    (expected : List (ExpectedBeat Rat)) :
    checkBeats (beats.map (·.map (c * ·))) (expected.map (·.map (c * ·))) =
      (checkBeats beats expected).map (c * ·) := by
  have filtered {p p' : Rat → Bool} (h : ∀ t, p' (c * t) = p t) (times : List Rat) :
      (times.map (c * ·)).filter p' = (times.filter p).map (c * ·) := by
    rw [List.filter_map, show p' ∘ (c * ·) = p from funext h]
  unfold checkBeats
  refine congrArg Findings.mk (funext fun kind => ?_)
  rw [← sortedTimes_scale hc]
  refine congrArg sortedTimes ?_
  simp only [Judged.ofBeats_scale hc, Judged.accepted_scale hc, Judged.skips_scale hc,
    Beat.map_time_scale, Beat.map_landing_scale, ascending_scale hc, ExpectedBeat.map_time_scale]
  cases kind with
  | unexpectedSkipshot => exact Judged.timesOf_scale (fun v => by cases v <;> rfl) _
  | overlappingSkipshot => exact Judged.timesOf_scale (fun v => by cases v <;> rfl) _
  | unexpectedFreezeshot => exact Judged.timesOf_scale (fun v => by cases v <;> rfl) _
  | unexpectedBurnshot => exact Judged.timesOf_scale (fun v => by cases v <;> rfl) _
  | overlappingFreezeshot => exact overlaps_scale hc _ _
  | overlappingBurnshot => exact overlaps_scale hc _ _
  | uncuedHit =>
    refine (congrArg (List.filter _) ?_).trans
      (filtered (fun t => congrArg (!·) (isIn_scale hc _ t)) _)
    exact Judged.timesOf_scale (fun v => by cases v <;> rfl) _
  | skippedHit =>
    exact filtered (fun t => congrArg₂ (· && ·) (isIn_scale hc _ t) (isIn_scale hc _ t)) _
  | missingHit =>
    exact filtered (fun t => congrArg₂ (!· && !·) (isIn_scale hc _ t) (isIn_scale hc _ t)) _
  | invalidCue => rfl
  | hitOnHoldRelease => rfl
  | overlappingHold => rfl

/-! ## Holds -/

theorem Hold.precedes_scale (hc : 0 < c) (a b : Hold Rat) :
    (a.map (c * ·)).precedes (b.map (c * ·)) = a.precedes b := by
  unfold Hold.precedes Hold.map
  simp only [beq_scale hc, less_scale hc]

theorem Hold.runsInto_scale (hc : 0 < c) (a b : Hold Rat) :
    (a.map (c * ·)).runsInto (b.map (c * ·)) = a.runsInto b := by
  unfold Hold.runsInto Hold.map
  rw [less_scale hc, almostEqual_scale hc]

theorem overlappingHits_scale (hc : 0 < c) : ∀ holds : List (Hold Rat),
    overlappingHits (holds.map (·.map (c * ·))) = (overlappingHits holds).map (c * ·)
  | [] => rfl
  | [_] => rfl
  | hold :: next :: rest => by
    have later := overlappingHits_scale hc (next :: rest)
    show (if (hold.map (c * ·)).runsInto (next.map (c * ·)) then
        c * hold.hit :: overlappingHits ((next :: rest).map (·.map (c * ·)))
      else overlappingHits ((next :: rest).map (·.map (c * ·)))) =
      (if hold.runsInto next then hold.hit :: overlappingHits (next :: rest)
      else overlappingHits (next :: rest)).map (c * ·)
    rw [Hold.runsInto_scale hc, later]
    split <;> rfl

/-- The findings about holds are scaled. -/
theorem checkHolds_scale (hc : 0 < c) (hits : List Rat) (holds : List (Hold Rat)) :
    checkHolds (hits.map (c * ·)) (holds.map (·.map (c * ·))) =
      (checkHolds hits holds).map (c * ·) := by
  have ordered : sortBy Hold.precedes (holds.map (·.map (c * ·))) =
      (sortBy Hold.precedes holds).map (·.map (c * ·)) :=
    sortBy_map (Hold.precedes_scale hc) holds
  have releases (holds : List (Hold Rat)) :
      (holds.map (·.map (c * ·))).map (·.release) = (holds.map (·.release)).map (c * ·) := by
    refine map_map_comm (fun _ => ?_) holds
    rfl
  have found : isIn ((ascending hits).map (c * ·)) ∘ (c * ·) = isIn (ascending hits) :=
    funext (isIn_scale hc _)
  refine congrArg Findings.mk (funext fun kind => ?_)
  cases kind with
  | hitOnHoldRelease =>
    show sortedTimes (List.filter (isIn _) _) = (sortedTimes (List.filter (isIn _) _)).map _
    rw [ordered, releases, ascending_scale hc, List.filter_map, found, sortedTimes_scale hc]
  | overlappingHold =>
    show sortedTimes (overlappingHits _) = (sortedTimes (overlappingHits _)).map _
    rw [ordered, overlappingHits_scale hc, sortedTimes_scale hc]
  | _ => rfl

/-! ## The result -/

/-- Multiplying all times of a level by a positive factor multiplies all times of the result by it
and changes nothing else. -/
theorem check_scale (hc : 0 < c) (options : Options) (cues : List (Cue Rat))
    (beats : List (Beat Rat)) (holds : List (Hold Rat)) (hits : Option (List Rat)) :
    check options (cues.map (·.map (c * ·))) (beats.map (·.map (c * ·)))
        (holds.map (·.map (c * ·))) (hits.map (·.map (c * ·))) =
      (check options cues beats holds hits).map (c * ·) := by
  have pressed : (hits.map (·.map (c * ·))).getD ((beats.map (·.map (c * ·))).map (·.landing)) =
      (hits.getD (beats.map (·.landing))).map (c * ·) := by
    cases hits with
    | some given => rfl
    | none => exact Beat.map_landing_scale beats
  have played : ((play options cues).map (c * ·)).findings =
      (play options cues).findings.map (c * ·) := by
    refine congrArg Findings.mk (funext fun kind => ?_)
    cases kind <;> rfl
  unfold check
  simp only [play_scale hc, pressed, checkHolds_scale hc, played]
  refine congrArg (CheckResult.mk · _) ?_
  rw [Findings.map_append, Findings.map_append, ← checkBeats_scale hc]
  rfl

/-- A level in seconds and in milliseconds: a burnshot that no pulse asks for, a beat that is not
cued, a hit that is missing, a press on a release, and a hold that runs into the next. -/
theorem check_scale_milliseconds :
    let cues : List (Cue Rat) :=
      [⟨0, .get, .nurse⟩, ⟨1, .set, .nurse⟩, ⟨2, .go, .nurse⟩, ⟨7, .stop, .nurse⟩]
    let beats : List (Beat Rat) :=
      [{ time := 3 }, { time := 5, shot? := some ⟨.burn, 1, 1 / 2⟩ }, { time := 6 }]
    let holds : List (Hold Rat) := [⟨1 / 2, 3⟩, ⟨2, 4⟩]
    let findings := (check {} cues beats holds none).findings
    (0 : Rat) < 1000 ∧
      check {} (cues.map (·.map (1000 * ·))) (beats.map (·.map (1000 * ·)))
          (holds.map (·.map (1000 * ·))) none =
        (check {} cues beats holds none).map (1000 * ·) ∧
      findings.times .unexpectedBurnshot = [5] ∧ findings.times .uncuedHit = [6] ∧
      findings.times .missingHit = [5, 7] ∧ findings.times .hitOnHoldRelease = [3] ∧
      findings.times .overlappingHold = [1 / 2] := by
  intro cues beats holds findings
  have positive : (0 : Rat) < 1000 := by decide +kernel
  refine ⟨positive, check_scale positive {} cues beats holds none, ?_⟩
  exact ⟨by cbv, by cbv, by cbv, by cbv, by cbv⟩

end CueCheck
