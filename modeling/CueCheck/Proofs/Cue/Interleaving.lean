import CueCheck.Proofs.Cue.Order
import CueCheck.Proofs.Cue.Step

/-!
# Voices do not interfere

The voices of a list of cues can be interleaved in any way without a change to what is reported, as
long as each voice keeps the order of its own cues.

- **Traces** (`trace`): each cue's voice with what the cue brings about. What a voice brings about
  depends on its own cues only (`filter_trace`).
- **Emissions** (`emissions_perm`): two interleavings bring about the same, in some order.
- **The result** (`play_interleaving`): they play the same beats and find the same invalid times,
  as numbers.
-/

namespace CueCheck

open Scalar (exact isFinite)

variable {α : Type} [Scalar α] {options : Options}

/-- What each cue of a list brings about, with the voice that it counts for. -/
def trace (options : Options) (sources : Sources α) : List (Cue α) → List (Voice × Emission α)
  | [] => []
  | cue :: cues =>
    (Sources.voiceOf options cue, (sources.step options cue).2) ::
      trace options (sources.step options cue).1 cues

theorem beats_emissions (sources : Sources α) (cues : List (Cue α)) :
    (emissions options sources cues).beats = (trace options sources cues).flatMap (·.2.beats) := by
  induction cues generalizing sources with
  | nil => rfl
  | cons cue cues ih =>
    rw [emissions_cons, Emission.beats_append, ih]
    rfl

theorem invalid_emissions (sources : Sources α) (cues : List (Cue α)) :
    (emissions options sources cues).invalid =
      (trace options sources cues).flatMap (·.2.invalid) := by
  induction cues generalizing sources with
  | nil => rfl
  | cons cue cues ih =>
    rw [emissions_cons, Emission.invalid_append, ih]
    rfl

/-- What a voice brings about is what its own cues bring about. -/
theorem filter_trace {sources others : Sources α} {voice : Voice} (cues : List (Cue α))
    (h : sources voice = others voice) :
    (trace options sources cues).filter (·.1 == voice) =
      trace options others (cues.filter (Sources.voiceOf options · == voice)) := by
  induction cues generalizing sources others with
  | nil => rfl
  | cons cue cues ih =>
    by_cases hv : Sources.voiceOf options cue = voice
    · subst hv
      have hstep : (sources.step options cue).1 (Sources.voiceOf options cue) =
          (others.step options cue).1 (Sources.voiceOf options cue) := by
        rw [Sources.step_self, Sources.step_self, h]
      have hemission : (sources.step options cue).2 = (others.step options cue).2 := by
        rw [Sources.step_eq, Sources.step_eq, h]
      simp only [List.filter_cons, trace, BEq.rfl, ↓reduceIte, ih hstep, hemission]
    · have hstep : (sources.step options cue).1 voice = others voice := by
        rw [Sources.step_of_ne _ _ (Ne.symm hv), h]
      have hne : (Sources.voiceOf options cue == voice) = false := beq_eq_false_iff_ne.mpr hv
      simp only [List.filter_cons, trace, hne, Bool.false_eq_true, ↓reduceIte, ih hstep]

/-- Interleavings of the same cues bring about the same, in some order. -/
theorem trace_perm (options : Options) (sources : Sources α) {cues more : List (Cue α)}
    (h : ∀ voice, cues.filter (Sources.voiceOf options · == voice) =
      more.filter (Sources.voiceOf options · == voice)) :
    (trace options sources cues).Perm (trace options sources more) := by
  refine perm_of_filter_perm Prod.fst fun voice => .of_eq ?_
  rw [filter_trace cues rfl, filter_trace more rfl, h]

/-- A cue can only find itself invalid. -/
theorem mem_invalid_emissions {sources : Sources α} {cues : List (Cue α)} {t : α}
    (h : t ∈ (emissions options sources cues).invalid) : ∃ cue ∈ cues, cue.time = t := by
  induction cues generalizing sources with
  | nil => cases h
  | cons cue cues ih =>
    rw [emissions_cons, Emission.invalid_append, List.mem_append] at h
    rcases h with h | h
    · exact ⟨cue, List.mem_cons_self, (Source.eq_of_mem_invalid_step h).symm⟩
    · obtain ⟨later, hl, ht⟩ := ih h
      exact ⟨later, List.mem_cons_of_mem _ hl, ht⟩

/-- Over binary64 numbers of which none overflows, the result does not depend on how the cues of
the voices are interleaved. -/
theorem play_interleaving (options : Options) (apart : options.ignoreVoices = false)
    (cues more : List (Cue Float)) (times : ∀ cue ∈ cues, isFinite cue.time = true)
    (projected : ∀ beat ∈ (emissions options .silent cues).beats, beat.IsFinite)
    (same : ∀ voice, cues.filter (·.voice == voice) = more.filter (·.voice == voice)) :
    (play options cues).expected.map (·.map exact) =
        (play options more).expected.map (·.map exact) ∧
      (play options cues).invalid.map exact = (play options more).invalid.map exact := by
  have hp : (trace options .silent cues).Perm (trace options .silent more) := by
    refine trace_perm options .silent fun voice => ?_
    unfold Sources.voiceOf
    rw [apart]
    exact same voice
  have hbeats : (emissions options .silent cues).beats.Perm
      (emissions options .silent more).beats := by
    rw [beats_emissions, beats_emissions]
    exact hp.flatMap_right _
  have hinvalid : (emissions options .silent cues).invalid.Perm
      (emissions options .silent more).invalid := by
    rw [invalid_emissions, invalid_emissions]
    exact hp.flatMap_right _
  refine ⟨map_exact_expected_of_perm hbeats projected,
    map_exact_sortedTimes_of_perm hinvalid fun t ht => ?_⟩
  obtain ⟨cue, hc, rfl⟩ := mem_invalid_emissions ht
  exact times cue hc

/-- The pattern of one voice and the pulse of another may be spoken in either order. -/
theorem play_interleaving_two_voices :
    let pattern : List (Cue Float) :=
      [⟨0, .get, .nurse⟩, ⟨1, .set, .nurse⟩, ⟨2, .go, .nurse⟩, ⟨5, .stop, .nurse⟩]
    let pulse : List (Cue Float) := [⟨0, .get, .ian⟩, ⟨1, .set, .ian⟩, ⟨2, .pulse 2, .ian⟩]
    (∀ cue ∈ pattern ++ pulse, isFinite cue.time = true) ∧
      (∀ beat ∈ (emissions {} .silent (pattern ++ pulse)).beats, beat.IsFinite) ∧
      (play {} (pattern ++ pulse)).expected.map (·.map exact) =
        (play {} (pulse ++ pattern)).expected.map (·.map exact) := by
  intro pattern pulse
  have times : ∀ cue ∈ pattern ++ pulse, isFinite cue.time = true := by decide +kernel
  have projected : ∀ beat ∈ (emissions {} .silent (pattern ++ pulse)).beats, beat.IsFinite := by
    decide +kernel
  have hpattern : ∀ cue ∈ pattern, cue.voice = .nurse := by decide +kernel
  have hpulse : ∀ cue ∈ pulse, cue.voice = .ian := by decide +kernel
  refine ⟨times, projected, (play_interleaving {} rfl _ _ times projected fun voice => ?_).1⟩
  rw [List.filter_append, List.filter_append]
  by_cases hv : voice = .nurse
  · have none : pulse.filter (·.voice == voice) = [] := by
      rw [List.filter_eq_nil_iff]
      intro cue hc
      rw [hpulse cue hc, hv]
      decide
    rw [none, List.append_nil, List.nil_append]
  · have none : pattern.filter (·.voice == voice) = [] := by
      rw [List.filter_eq_nil_iff]
      intro cue hc
      rw [hpattern cue hc, beq_iff_eq]
      exact Ne.symm hv
    rw [none, List.append_nil, List.nil_append]

end CueCheck
