import CueCheck.Beat.Verdict
import CueCheck.Proofs.Level.Placement
import Mathlib

/-!
# The beats of a oneshot event

Over exact rationals, the beats that a oneshot event puts into a level are what the check takes them
for: a press is where its beat lands, and a shot has its pulse where its repetition starts.

- **One repetition** (`landing_beatOfLoop`, `pulse_beatOfLoop`): the landing is computed back from
  the cued instant, whichever way the shot is off.
- **Pulses** (`Beat.PulsesAt`, `pulsesAt_of_interval`): the check wants the instant before a shot at
  one time, and at no other.
- **All repetitions** (`Event.Repeats`, `repeats_of_oneshot`): how many beats an event has, which of
  them may be a skipshot, and where the pulses of its shots are.
-/

namespace CueCheck

open Scalar

/-! ## One repetition -/

theorem toScalar_mul_rat (n : Number ℚ) (k : ℤ) : (n.mul k).toScalar = n.toScalar * k := by
  cases n with
  | whole n =>
    show ((n * k : ℤ) : ℚ) = n * k
    push_cast
    rfl
  | real x => rfl

namespace Part.Oneshot

variable (oneshot : Oneshot ℚ) (i : ℕ)

/-- The press of a repetition is where its beat lands. -/
theorem landing_beatOfLoop : (oneshot.beatOfLoop i).1.landing = (oneshot.beatOfLoop i).2 := by
  unfold beatOfLoop
  simp only
  split
  · exact add_zero _
  · exact sub_add_cancel _ _

theorem loop_of_skipshot (h : (oneshot.beatOfLoop i).1.skipshot = true) :
    (i : ℤ) = oneshot.loops := by
  have same : (oneshot.beatOfLoop i).1.skipshot =
      (oneshot.skipshot && decide ((i : ℤ) = oneshot.loops)) := by
    unfold beatOfLoop
    simp only
    split <;> rfl
  rw [same, Bool.and_eq_true] at h
  exact of_decide_eq_true h.2

/-- The pulse of a shot is at the start of its repetition. -/
theorem pulse_beatOfLoop {shot : Shot ℚ} (h : (oneshot.beatOfLoop i).1.shot? = some shot) :
    (oneshot.beatOfLoop i).1.landing - shot.interval = oneshot.loopStart i := by
  rw [landing_beatOfLoop]
  unfold beatOfLoop at h ⊢
  simp only at h ⊢
  split at h
  · cases h
  · rename_i delayed
    cases h
    rw [if_neg delayed]
    exact add_sub_cancel_right _ _

end Part.Oneshot

/-! ## Pulses -/

/-- A shot has its pulse at a time: that long before it lands, and it is unexpected exactly if it
answers an instant but none of the instants before those that it answers is there. -/
structure Beat.PulsesAt (beat : Beat ℚ) (shot : Shot ℚ) (start : ℚ) : Prop where
  interval : beat.landing - shot.interval = start
  required (expected : List (ExpectedBeat ℚ)) :
    beat.verdict expected = .unexpectedShot shot.kind ↔
      expectedAt expected beat.time ≠ [] ∧
        ∀ found ∈ expectedAt expected beat.time, ∀ prev, found.prev = some prev →
          almostEqual prev start = false

theorem skipVerdict_ne_unexpectedShot (found : List (ExpectedBeat ℚ)) (kind : ShotKind) :
    Beat.skipVerdict found ≠ .unexpectedShot kind := by
  unfold Beat.skipVerdict
  split
  · nofun
  · split <;> nofun

/-- Whatever its shot, a beat is judged by where it lands less the interval. -/
theorem pulsesAt_of_interval {beat : Beat ℚ} {shot : Shot ℚ} {start : ℚ}
    (has : beat.shot? = some shot) (interval : beat.landing - shot.interval = start) :
    beat.PulsesAt shot start where
  interval := interval
  required expected := by
    have uncued_iff : beat.pulseIsCued shot (expectedAt expected beat.time) = false ↔
        ∀ found ∈ expectedAt expected beat.time, ∀ prev, found.prev = some prev →
          almostEqual prev start = false := by
      unfold Beat.pulseIsCued
      rw [interval]
      simp only [List.any_eq_false, Option.any_eq_true, not_exists, not_and, Bool.not_eq_true]
    rw [← uncued_iff]
    unfold Beat.verdict
    simp only [has, List.isEmpty_iff]
    by_cases none : expectedAt expected beat.time = []
    · simp only [none, if_true, ne_eq, not_true_eq_false, false_and]
      exact iff_of_false nofun id
    · cases cued : beat.pulseIsCued shot (expectedAt expected beat.time) with
      | false =>
        simp only [none, if_false, Option.filter_some, cued, Bool.not_false, if_true]
        exact iff_of_true trivial ⟨none, trivial⟩
      | true =>
        simp only [none, if_false, Option.filter_some, cued, Bool.not_true, Bool.false_eq_true]
        refine iff_of_false ?_ (fun h => by cases h.2)
        split
        · exact skipVerdict_ne_unexpectedShot _ _
        · nofun

/-! ## All repetitions -/

/-- The start of a repetition of a oneshot event in seconds. -/
def Event.loopStart (timeline : Timeline ℚ) (event : Event ℚ) (i : ℕ) : ℚ :=
  timeline.time (timeline.beatOf event) +
    (Value.getNumber event "interval" (.whole 0)).toScalar * i *
      timeline.secondsPerBeat (timeline.beatOf event)

/-- The beats of a oneshot event, in order. -/
structure Event.Repeats (timeline : Timeline ℚ) (event : Event ℚ) (beats : List (Beat ℚ)) :
    Prop where
  /-- One beat, and one more for every loop. -/
  length : ∃ loops, (Value.getNumber event "loops" (.whole 0)).truncate = .ok loops ∧
    (beats.length : ℤ) = max (loops + 1) 0
  /-- Only the last beat may be a skipshot. -/
  skipshot (i : ℕ) (h : i < beats.length) : beats[i].skipshot = true → i + 1 = beats.length
  /-- Every shot has its pulse where its own loop starts. -/
  shot (i : ℕ) (h : i < beats.length) (shot : Shot ℚ) :
    beats[i].shot? = some shot → beats[i].PulsesAt shot (event.loopStart timeline i)

section Repeats

variable {timeline : Timeline ℚ} {event : Event ℚ}

theorem ofEvent_eq_ok {oneshot : Part.Oneshot ℚ}
    (h : Part.Oneshot.ofEvent timeline event = .ok oneshot) :
    (Value.getNumber event "loops" (.whole 0)).truncate = .ok oneshot.loops ∧
      ∀ i, oneshot.loopStart i = event.loopStart timeline i := by
  unfold Part.Oneshot.ofEvent at h
  split at h
  · cases h
  · rename_i loops truncated
    cases h
    refine ⟨truncated, fun i => ?_⟩
    unfold Part.Oneshot.loopStart Event.loopStart
    rw [toScalar_mul_rat]
    rfl

/-- What a oneshot event adds: its beats, and where they land. -/
theorem repeats_of_oneshot {part : Part ℚ} (h : Part.oneshot timeline event = .ok part) :
    event.Repeats timeline part.beats ∧ part.hits = part.beats.map Beat.landing ∧
      part.holds = [] := by
  rw [oneshot_eq] at h
  obtain ⟨oneshot, asked, rfl⟩ := map_eq_ok_iff.mp h
  obtain ⟨loops, starts⟩ := ofEvent_eq_ok asked
  have length : (oneshot.beats.map (·.1)).length = (oneshot.loops + 1).toNat := by
    simp [Part.Oneshot.beats]
  have loop (i : ℕ) (hi : i < (oneshot.beats.map (·.1)).length) :
      (oneshot.beats.map (·.1))[i] = (oneshot.beatOfLoop i).1 := by
    simp [Part.Oneshot.beats]
  refine ⟨⟨⟨_, loops, by rw [length, Int.toNat_eq_max]⟩, ?_, ?_⟩, ?_, rfl⟩
  · intro i hi skips
    rw [loop] at skips
    have last := oneshot.loop_of_skipshot i skips
    rw [length]
    omega
  · intro i hi shot has
    rw [loop] at has ⊢
    exact pulsesAt_of_interval has ((oneshot.pulse_beatOfLoop i has).trans (starts i))
  · unfold Part.Oneshot.beats
    simp only [List.map_map]
    exact List.map_congr_left fun i _ => (oneshot.landing_beatOfLoop i).symm

end Repeats

end CueCheck
