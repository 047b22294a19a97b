import CueCheck.Proofs.Check.Permutation
import CueCheck.Proofs.CommandLine
import CueCheck.Proofs.Cue.Interleaving
import CueCheck.Proofs.Sorting.Stable

/-!
# The views of a result agree

The lists of the kinds, the list of all findings, their count, the report and the exit status tell
the same.

- **Every list is listed** (`isListing_check`): cues, beats and holds are reported through
  `sortedTimes`, so where no time is NaN, listing all findings drops and moves nothing.
- **The views** (`check_views`): so the lists, their count and the report agree, and a request that
  gets as far as a report ends with its text and status (`Request.run_eq_ok_iff`).
-/

namespace CueCheck

open Scalar (exact)

/-- None of the times that a check puts in order is NaN. -/
structure ComparesNumbers (options : Options) (cues : List (Cue Float)) (beats : List (Beat Float))
    (holds : List (Hold Float)) : Prop where
  cue : ∀ cue ∈ cues, exact cue.time ≠ .nan
  instant : ∀ e ∈ (play options cues).expected, exact e.time ≠ .nan
  beat : ∀ b ∈ beats, exact b.time ≠ .nan
  hold : ∀ h ∈ holds, exact h.hit ≠ .nan
  release : ∀ h ∈ holds, exact h.release ≠ .nan

/-! ## Every list is listed -/

section Listing

variable {options : Options} {cues : List (Cue Float)} {beats : List (Beat Float)}
  {holds : List (Hold Float)}

theorem isListing_playback (options : Options) (number : ∀ cue ∈ cues, exact cue.time ≠ .nan)
    (kind : FindingKind) : IsListing ((play options cues).findings.times kind) := by
  cases kind with
  | invalidCue =>
    refine isListing_sortedTimes fun t ht => ?_
    obtain ⟨cue, hc, rfl⟩ := mem_invalid_emissions ht
    exact number cue hc
  | _ => exact isListing_nil

theorem isListing_checkBeats {expected : List (ExpectedBeat Float)}
    (number : ∀ b ∈ beats, exact b.time ≠ .nan) (cued : ∀ e ∈ expected, exact e.time ≠ .nan)
    (kind : FindingKind) : IsListing ((checkBeats beats expected).times kind) := by
  have verdicts {test : Verdict Float → Bool} {t : Float}
      (ht : t ∈ Judged.timesOf test (Judged.ofBeats beats expected)) : exact t ≠ .nan := by
    obtain ⟨b, hb, -, rfl⟩ := mem_timesOf.mp ht
    exact number b hb
  have disagreements {shot : ShotKind} {t : Float}
      (ht : t ∈ overlaps (Judged.accepted (Judged.ofBeats beats expected)) shot) :
      exact t ≠ .nan := by
    obtain ⟨a, ha, rfl⟩ := exists_of_mem_overlaps ht
    exact number a (mem_accepted_iff.mp ha).1
  have instants {test : Float → Bool} {t : Float}
      (ht : t ∈ (expected.map (·.time)).filter test) : exact t ≠ .nan := by
    obtain ⟨e, he, rfl⟩ := List.mem_map.mp (List.mem_of_mem_filter ht)
    exact cued e he
  refine isListing_sortedTimes fun t ht => ?_
  cases kind with
  | unexpectedSkipshot => exact verdicts ht
  | overlappingSkipshot => exact verdicts ht
  | unexpectedFreezeshot => exact verdicts ht
  | unexpectedBurnshot => exact verdicts ht
  | overlappingFreezeshot => exact disagreements ht
  | overlappingBurnshot => exact disagreements ht
  | uncuedHit => exact verdicts (List.mem_of_mem_filter ht)
  | skippedHit => exact instants ht
  | missingHit => exact instants ht
  | _ => cases ht

theorem isListing_checkHolds (hits : List Float) (number : ∀ h ∈ holds, exact h.hit ≠ .nan)
    (released : ∀ h ∈ holds, exact h.release ≠ .nan) (kind : FindingKind) :
    IsListing ((checkHolds hits holds).times kind) := by
  cases kind with
  | hitOnHoldRelease =>
    refine isListing_sortedTimes fun t ht => ?_
    obtain ⟨h, hh, rfl⟩ := List.mem_map.mp (List.mem_of_mem_filter ht)
    exact released h (mem_sortBy.mp hh)
  | overlappingHold =>
    refine isListing_sortedTimes fun t ht => ?_
    obtain ⟨h, hh, rfl⟩ := mem_of_mem_overlappingHits ht
    exact number h (mem_sortBy.mp hh)
  | _ => exact isListing_nil

/-- Each kind of finding is about cues, about beats or about holds, and is listed there. -/
theorem isListing_check (numbers : ComparesNumbers options cues beats holds)
    (hits : Option (List Float)) (kind : FindingKind) :
    IsListing ((check options cues beats holds hits).findings.times kind) := by
  have invalid := isListing_playback options numbers.cue kind
  have found := isListing_checkBeats numbers.beat numbers.instant kind
  have held := isListing_checkHolds (hits.getD (beats.map (·.landing))) numbers.hold numbers.release
    kind
  have noBeats (h : kind ∈ [.invalidCue, .hitOnHoldRelease, .overlappingHold]) :
      (checkBeats beats (play options cues).expected).times kind = [] := by
    simp only [List.mem_cons, List.not_mem_nil, or_false] at h
    rcases h with rfl | rfl | rfl <;> exact sortedTimes_nil
  unfold check
  simp only [Findings.times_append]
  cases kind with
  | invalidCue =>
    rw [noBeats (by simp)]
    simpa [checkHolds] using invalid
  | hitOnHoldRelease =>
    rw [noBeats (by simp)]
    exact held
  | overlappingHold =>
    rw [noBeats (by simp)]
    exact held
  | _ => simpa [checkHolds, Playback.findings] using found

end Listing

/-! ## The views -/

/-- The list of all findings is the lists of the kinds in reporting order, as long as the count and
empty iff nothing is found. A report has one line for each kind with findings and a position for
each of those. What reports on a level ends with the text of the report, and with status one iff
that is not empty: so do a text that is decoded to the level and a request that reads such a text
and loads the options, and neither ends in another way. -/
theorem check_views (options : Options) (cues : List (Cue Float)) (beats : List (Beat Float))
    (holds : List (Hold Float)) (hits : Option (List Float))
    (numbers : ComparesNumbers options cues beats holds) :
    let result := (check options cues beats holds hits).findings
    (result.list = result.concatenated ∧ result.list.length = result.count ∧
      (result.isPresent = true ↔ result.list ≠ [])) ∧
    (∀ level text, report level result = .ok text →
      (∃ lines, text = String.join lines ∧
        List.Forall₂ (IsLineOf level result) result.foundKinds lines) ∧
      text.toList.count '\n' = result.foundKinds.length ∧
      (text = "" ↔ result.isPresent = false)) ∧
    ∀ (level : Level Float) (outcome : Outcome),
      (reportOn options level = .ok outcome ↔ outcome.IsReport options level) ∧
      ∀ ε : Type,
        (∀ text, Level.ofText text = .ok level →
          ((answerText Float options text : Except (Failure ε) Outcome) = .ok outcome ↔
            outcome.IsReport options level)) ∧
        ∀ (request : Request) (environment : Environment ε),
          request.Reaches environment options level →
            (request.run Float environment = .ok outcome ↔ outcome.IsReport options level) := by
  intro result
  have listed : result.list = result.concatenated :=
    Findings.list_eq_concatenated (isListing_check numbers hits)
  refine ⟨⟨listed, ?_, ?_⟩, ?_, ?_⟩
  · rw [listed, result.count_eq_length]
  · rw [listed, result.isPresent_iff]
  · intro level text h
    obtain ⟨lines, hj, hl⟩ := report_lines h
    refine ⟨⟨lines, hj, hl⟩, ?_, report_eq_empty_iff h⟩
    rw [hj, count_newline_join hl]
  · exact fun level outcome => ⟨reportOn_eq_ok_iff, fun ε =>
      ⟨fun text => answerText_eq_ok_iff, fun request environment => Request.run_eq_ok_iff⟩⟩

/-- A level with a oneshot that comes twice where none is expected, a phrase whose beats are missed,
and two holds, of which the first runs into the second and is released at a hit. -/
def heldText : List Char :=
  "\x7b\"rows\":[\x7b\"row\":0\x7d],\"events\":[".toList ++
    "\x7b\"type\":\"SayReadyGetSetGo\",\"phraseToSay\":\"SayGetSetGo\"\x7d,".toList ++
    "\x7b\"type\":\"AddOneshotBeat\",\"row\":0,\"bar\":2\x7d,".toList ++
    "\x7b\"type\":\"AddOneshotBeat\",\"row\":0,\"bar\":2\x7d,".toList ++
    "\x7b\"type\":\"AddClassicBeat\",\"row\":0,\"hold\":3\x7d,".toList ++
    "\x7b\"type\":\"AddClassicBeat\",\"row\":0,\"beat\":2,\"hold\":3\x7d,".toList ++
    "\x7b\"type\":\"FinishLevel\",\"beat\":6\x7d]\x7d".toList

/-- The level is read from a file and checked with triangles, which a switch asks for. -/
theorem check_views_held_beats :
    let environment : Environment Empty :=
      { file? := fun path => if path = "level".toList then some (.ok heldText) else none
        input := .ok []
        load := fun _ overrides =>
          .ok (some { triangles := overrides.contains "triangleshot=true".toList }) }
    let request : Request := { level? := some "level".toList, switches := [.triangleshot] }
    let options : Options := { triangles := true }
    let text := "Uncued hit: 2-2\nMissing hit: 1-4, 1-6\nHit on hold release: 2-2\n" ++
      "Overlapping holds: 1-7\n"
    ∃ level : Level Float, request.Reaches environment options level ∧
      ComparesNumbers options level.cues level.beats level.holds ∧
      let result := (check options level.cues level.beats level.holds (some level.hits)).findings
      (result.list = result.concatenated ∧ result.list.length = result.count ∧
        (result.isPresent = true ↔ result.list ≠ [])) ∧
      report level result = .ok text ∧
      ((∃ lines, text = String.join lines ∧
          List.Forall₂ (IsLineOf level result) result.foundKinds lines) ∧
        text.toList.count '\n' = result.foundKinds.length ∧
        (text = "" ↔ result.isPresent = false)) ∧
      reportOn options level = .ok ⟨1, text⟩ ∧
      (answerText Float options (textOfFile heldText) : Except (Failure Empty) Outcome) =
        .ok ⟨1, text⟩ ∧
      request.run Float environment = .ok ⟨1, text⟩ := by
  intro environment request options text
  -- Unfolded for a value and a level that are not known yet, so that the kernel reads the text only
  -- once.
  have levelOf := (fun value => by
    simp only [Level.ofValue, Level.ofMembers, Level.ofPart, ascending, keptEvents,
      Timeline.ofEvents, RateTable.ofBars, RateTable.ofTempos, RateTable.ofChanges,
      RateTable.ofSchedule, sortBy_eq_sorted]
    rfl : ∀ value : Value Float, Level.ofValue value = _)
  have reportOf := (fun level => by
    simp only [report, check, play, Playback.ofEmission, checkBeats, checkHolds, sortedTimes,
      ascending, Judged.ofBeats, Judged.accepted, Judged.skips, sortBy_eq_sorted]
    rfl : ∀ level : Level Float, report level
      (check options level.cues level.beats level.holds (some level.hits)).findings = _)
  have evaluated :
      (Level.ofText (textOfFile heldText) : Except LevelError (Level Float)).toOption.map
        (fun level =>
          (((∀ cue ∈ level.cues, exact cue.time ≠ .nan) ∧
              (∀ e ∈ (emissions options .silent level.cues).beats, exact e.time ≠ .nan) ∧
              (∀ b ∈ level.beats, exact b.time ≠ .nan) ∧
              ∀ h ∈ level.holds, exact h.hit ≠ .nan ∧ exact h.release ≠ .nan : Bool),
            (report level (check options level.cues level.beats level.holds
              (some level.hits)).findings).toOption)) =
      some (true, some text) := by
    rw [Level.ofText, levelOf]
    simp only [reportOf]
    decide +kernel
  cases decoded : (Level.ofText (textOfFile heldText) : Except LevelError (Level Float)) with
  | error e => rw [decoded] at evaluated; cases evaluated
  | ok level =>
    rw [decoded] at evaluated
    obtain ⟨numbers, written⟩ := Prod.mk.inj (Option.some.inj evaluated)
    obtain ⟨cue, instant, beat, hold⟩ := of_decide_eq_true numbers
    have numbers : ComparesNumbers options level.cues level.beats level.holds :=
      ⟨cue, fun e he => instant e (mem_sortBy.mp (mem_of_mem_collapseBy he)), beat,
        fun h hh => (hold h hh).1, fun h hh => (hold h hh).2⟩
    have written := toOption_eq_some_iff.mp written
    have reaches : request.Reaches environment options level := .intro rfl rfl rfl decoded
    have ends : Outcome.IsReport ⟨1, text⟩ options level := ⟨written, by decide⟩
    obtain ⟨views, reported, endings⟩ :=
      check_views options level.cues level.beats level.holds (some level.hits) numbers
    obtain ⟨onLevel, others⟩ := endings level ⟨1, text⟩
    obtain ⟨onText, onRequest⟩ := others Empty
    exact ⟨level, reaches, numbers, views, written, reported level text written,
      onLevel.mpr ends, (onText _ decoded).mpr ends,
      (onRequest request environment reaches).mpr ends⟩

end CueCheck
