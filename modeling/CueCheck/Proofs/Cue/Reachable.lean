import CueCheck.Proofs.Cue.Closing
import CueCheck.Proofs.Cue.Origin
import CueCheck.Proofs.Tolerance
import Mathlib.Tactic.Linarith
import Mathlib.Tactic.Positivity

/-!
# Reachable states of the voices, and beats that lie ahead

Over exact rationals, for cues in time order.

- **Patterns** (`Pattern.IsSound`): closing ordered markers gives a pattern that repeats forward and
  has all its beats after its start (`close_isSound`). All that the voices confirm and play is sound
  (`isSound_states`).
- **States** (`Reached`): what holds of a voice after a list of cues.
- **Beats** (`asksFor_lt`): every beat lies strictly after the go or the pulse that asks for it.
-/

namespace CueCheck

open Scalar (less)

variable {options : Options} {cues : List (Cue Rat)} {voice : Voice}

/-- No pattern at all, or one that repeats forward with its beats in order after its start. -/
def Pattern.IsSound (pattern : Pattern Rat) : Prop :=
  pattern = .empty ∨
    (0 < pattern.interval ∧ (∀ offset ∈ pattern.offsets, 0 < offset) ∧
      pattern.offsets.Pairwise (· ≤ ·))

namespace Pattern

variable {pending : List (Marker Rat)} {start stop time : Rat} {previous pattern : Pattern Rat}

/-! ## Closing markers -/

theorem lt_of_endsAtStart_eq_false (h : endsAtStart start stop = false) : start < stop := by
  unfold endsAtStart at h
  rw [Bool.or_eq_false_iff, decide_eq_false_iff_not] at h
  have hpos : ¬stop - start ≤ 0 := h.1
  linarith

theorem ofLoneSet_isSound (h : ofLoneSet start stop = some pattern) : pattern.IsSound := by
  obtain ⟨he, rfl⟩ := ofLoneSet_eq_some_iff.mp h
  have hlt := lt_of_endsAtStart_eq_false he
  refine .inr ⟨?_, ?_, List.pairwise_singleton _ _⟩
  · show (0 : Rat) < 2 * (stop - start)
    linarith
  · intro offset ho
    rw [List.mem_singleton.mp ho]
    linarith

theorem offsetsOf_pairwise (kind : MarkerKind) (ordered : pending.Pairwise (·.time ≤ ·.time)) :
    (offsetsOf kind start pending).Pairwise (· ≤ ·) := by
  unfold offsetsOf
  rw [List.pairwise_map]
  exact (ordered.filter _).imp fun h => sub_le_sub_right h start

/-- No set coincides with the first marker, so each comes strictly later. -/
theorem pos_of_mem_offsetsOf (first : ∀ m ∈ pending, start ≤ m.time)
    (apart : ∀ m ∈ pending, m.kind = .set → almostEqual m.time start = false)
    {offset : Rat} (h : offset ∈ offsetsOf .set start pending) : 0 < offset := by
  obtain ⟨m, hm, hk, rfl⟩ := mem_offsetsOf.mp h
  have hne : m.time ≠ start := by
    intro he
    have := apart m hm hk
    rw [he, almostEqual_self] at this
    cases this
  exact sub_pos.mpr (lt_of_le_of_ne (first m hm) hne.symm)

theorem LaidOut.interval_pos (h : LaidOut start stop pending pattern) : 0 < pattern.interval := by
  obtain ⟨he, -, shape⟩ := h
  have hlength : (0 : Rat) < stop - start := sub_pos.mpr (lt_of_endsAtStart_eq_false he)
  rcases shape with ⟨-, rfl⟩ | ⟨hne, rfl⟩
  · exact hlength
  · have hsize : (0 : Rat) < period (offsetsOf .set start pending) (stop - start) :=
      Nat.cast_pos.mpr (period_pos hne)
    have hn : (0 : Rat) < (offsetsOf .set start pending).length :=
      Nat.cast_pos.mpr (List.length_pos_iff.mpr hne)
    unfold repetitionLength
    simp only [Scalar.ofInt_rat, Int.cast_natCast]
    positivity

theorem LaidOut.isSound (h : LaidOut start stop pending pattern)
    (ordered : pending.Pairwise (·.time ≤ ·.time)) (first : ∀ m ∈ pending, start ≤ m.time) :
    pattern.IsSound := by
  have hpos := h.interval_pos
  obtain ⟨-, apart, shape⟩ := h
  rcases shape with ⟨-, rfl⟩ | ⟨-, rfl⟩
  · exact .inr ⟨hpos, by simp, .nil⟩
  · refine .inr ⟨hpos, fun offset ho => ?_, ?_⟩
    · exact pos_of_mem_offsetsOf first apart (List.mem_of_mem_take ho)
    · exact (offsetsOf_pairwise .set ordered).sublist (List.take_sublist _ _)

/-- Markers in time order lay out sound patterns only, and an earlier pattern that stays was one. -/
theorem close_isSound (ordered : pending.Pairwise (·.time ≤ ·.time)) (hp : previous.IsSound)
    (h : close pending time previous = some pattern) : pattern.IsSound := by
  obtain ⟨-, -, rfl⟩ | ⟨start, -, hlone⟩ | ⟨start, rest, rfl, hlaid⟩ := close_cases h
  · exact hp
  · exact ofLoneSet_isSound hlone
  · refine hlaid.isSound ordered fun m hm => ?_
    rcases List.mem_cons.mp hm with rfl | hm
    · exact le_refl start
    · exact (List.pairwise_cons.mp ordered).1 m hm

end Pattern

/-! ## States -/

/-- What holds of the state of a voice after a list of cues. -/
structure Reached (options : Options) (cues : List (Cue Rat)) (voice : Voice)
    (source : Source Rat) : Prop where
  /-- The markers are those of the voice since its last go or pulse, in order. -/
  pending_eq : source.pending = pendingMarkers options voice cues
  pending_ordered : source.pending.Pairwise (·.time ≤ ·.time)
  pending_le : ∀ m ∈ source.pending, ∀ last ∈ cues.getLast?, m.time ≤ last.time
  pattern_isSound : source.pattern.IsSound
  playing_isSound : source.playing.IsSound
  start_mem : ∀ start, source.start? = some start →
    ∃ go ∈ cues, Sources.voiceOf options go = voice ∧ go.kind = .go ∧ go.time = start

theorem pendingMarkers_ordered (ordered : cues.Pairwise (·.time ≤ ·.time)) :
    (pendingMarkers options voice cues).Pairwise (·.time ≤ ·.time) := by
  refine (ordered.sublist (List.rtakeWhile_suffix _ _).sublist).filterMap _ ?_
  intro a b hab m hm n hn
  rw [time_of_marker? hm, time_of_marker? hn]
  exact hab

theorem le_getLast {last cue : Cue Rat} (ordered : cues.Pairwise (·.time ≤ ·.time))
    (hl : last ∈ cues.getLast?) (hc : cue ∈ cues) : cue.time ≤ last.time := by
  obtain ⟨before, rfl⟩ := List.getLast?_eq_some_iff.mp hl
  rcases List.mem_append.mp hc with hb | hb
  · exact (List.pairwise_append.mp ordered).2.2 cue hb last List.mem_cons_self
  · rw [List.mem_singleton.mp hb]

/-- A confirmed pattern is sound where the pattern before was. -/
theorem confirmed_isSound {source : Source Rat} {time : Rat} {kind : CueKind}
    {pattern : Pattern Rat} (ordered : source.pending.Pairwise (·.time ≤ ·.time))
    (hp : source.pattern.IsSound) (h : source.confirmed time kind = some pattern) :
    pattern.IsSound :=
  Pattern.close_isSound ordered hp (Source.close_of_confirmed h)

/-- All that a voice confirms and plays is sound. -/
theorem isSound_states (options : Options) (voice : Voice)
    (ordered : cues.Pairwise (·.time ≤ ·.time)) :
    (states options .silent cues voice).pattern.IsSound ∧
      (states options .silent cues voice).playing.IsSound := by
  refine patterns_states (.inl rfl) fun before cue hb previous pattern hp hc => ?_
  have ordered' := ordered.sublist ((List.prefix_append before [cue]).trans hb).sublist
  exact Pattern.close_isSound (pendingMarkers_ordered ordered') hp hc

theorem reached_of_ordered (options : Options) (voice : Voice)
    (ordered : cues.Pairwise (·.time ≤ ·.time)) :
    Reached options cues voice (states options .silent cues voice) := by
  have hpending := pending_states options cues voice
  obtain ⟨hpattern, hplaying⟩ := isSound_states options voice ordered
  refine ⟨hpending, ?_, fun m hm last hl => ?_, hpattern, hplaying, fun start hs => ?_⟩
  · rw [hpending]
    exact pendingMarkers_ordered ordered
  · rw [hpending] at hm
    obtain ⟨cue, hc, ht⟩ := exists_cue_of_mem_pendingMarkers hm
    rw [← ht]
    exact le_getLast ordered hl hc
  · obtain ⟨before, go, between, rfl, hv, hk, ht, -, -⟩ := started_of_start? hs
    exact ⟨go, by simp, hv, hk, ht⟩

/-! ## Beats -/

/-- Every term of a run of a sound pattern that can be played comes after the start. -/
theorem lt_term {run : Run Rat} (hp : run.pattern.IsSound)
    (playable : run.pattern.isPlayable = true) (k : Nat) : run.start < run.term k := by
  obtain ⟨hinterval, hoffsets⟩ := Pattern.isPlayable_iff.mp playable
  have hinterval' : (0 : Rat) < run.pattern.interval := less_iff.mp hinterval
  have hlt : k % run.pattern.offsets.length < run.pattern.offsets.length :=
    Nat.mod_lt _ (List.length_pos_iff.mpr hoffsets)
  have hoffset : 0 < run.pattern.offsets.getD (k % run.pattern.offsets.length) Scalar.zero := by
    rcases hp with h | ⟨-, hpos, -⟩
    · rw [h] at hoffsets
      exact absurd rfl hoffsets
    · rw [← List.getElem_eq_getD Scalar.zero (h := hlt)]
      exact hpos _ (List.getElem_mem _)
  have hgroups : (0 : Rat) ≤ Scalar.ofInt (k / run.pattern.offsets.length : Nat) *
      run.pattern.interval := by
    simp only [Scalar.ofInt_rat, Int.cast_natCast]
    positivity
  unfold Run.term
  simp only
  linarith

theorem lt_of_mem_beats {run : Run Rat} {stop : Rat} {beat : ExpectedBeat Rat}
    (hp : run.pattern.IsSound) (h : beat ∈ run.beats stop) : run.start < beat.time := by
  obtain ⟨playable, -, k, rfl⟩ := Run.exists_of_mem_beats h
  exact lt_term hp playable k

theorem lt_of_mem_squareBeats {pattern : Pattern Rat} {time : Rat} {count : Int} {triangles : Bool}
    {beat : ExpectedBeat Rat} (hp : pattern.IsSound)
    (h : beat ∈ squareBeats pattern time count triangles) : time < beat.time := by
  unfold squareBeats at h
  split at h
  · rename_i tick rest _ hoffsets
    have htick : 0 < tick := by
      rcases hp with h0 | ⟨-, hpos, -⟩
      · rw [h0] at hoffsets
        cases hoffsets
      · exact hpos tick (by rw [hoffsets]; exact List.mem_cons_self)
    split at h
    · rename_i hcount
      rw [Bool.and_eq_true, decide_eq_true_iff] at hcount
      obtain ⟨i, -, rfl⟩ := List.mem_map.mp h
      have hcount' : (0 : Rat) < count := by exact_mod_cast (by omega : 0 < count)
      simp only [Scalar.ofInt_rat, Int.cast_natCast, Int.cast_ofNat]
      have : (0 : Rat) < tick * (3 / 2 + i / count) := by positivity
      linarith
    · obtain ⟨i, hi, rfl⟩ := List.mem_map.mp h
      rw [List.mem_range'_1] at hi
      have hi' : (0 : Rat) < i := Nat.cast_pos.mpr (by omega)
      simp only [Scalar.ofInt_rat, Int.cast_natCast]
      have : (0 : Rat) < tick * i := by positivity
      linarith
  · cases h

/-- A beat lies strictly after the go or the pulse that asks for it. -/
theorem asksFor_lt (ordered : cues.Pairwise (·.time ≤ ·.time)) {cue : Cue Rat}
    {beat : ExpectedBeat Rat} (h : AsksFor options cues cue beat) : cue.time < beat.time := by
  cases h with
  | @run before between after _ ending _ split starts goes own ends due =>
    have hgo : cues = (before ++ [cue]) ++ (between ++ ending :: after) := by simp [split]
    rw [hgo] at ordered
    exact lt_of_mem_beats
      (isSound_states options _ (List.pairwise_append.mp ordered).1).2 due
  | @pulse before after _ count pattern _ split counts confirms plays =>
    rw [split] at ordered
    have ordered' := (List.pairwise_append.mp ordered).1
    have hr := reached_of_ordered options (Sources.voiceOf options cue) ordered'
    exact lt_of_mem_squareBeats
      (confirmed_isSound hr.pending_ordered hr.pattern_isSound confirms) plays

/-- After every part of a list of cues in time order, every voice is in a state as described; and
every beat that the list brings about is asked for by a go or a pulse strictly before it. -/
theorem voices_reach (options : Options) {cues : List (Cue Rat)}
    (ordered : cues.Pairwise (·.time ≤ ·.time)) :
    (∀ before, before <+: cues → ∀ voice,
      Reached options before voice (states options .silent before voice)) ∧
    (∀ beat ∈ (emissions options .silent cues).beats, ∃ cue, AsksFor options cues cue beat) ∧
    ∀ cue beat, AsksFor options cues cue beat → cue.time < beat.time := by
  refine ⟨fun before hb voice => ?_, fun beat hb => exists_asksFor hb, fun cue beat => ?_⟩
  · exact reached_of_ordered options voice (ordered.sublist hb.sublist)
  · exact asksFor_lt ordered

/-- A get and two sets, a go, a lone set that a pulse plays during the run, and a stop. -/
theorem voices_reach_pulse_in_run :
    let cues : List (Cue Rat) :=
      [⟨0, .get, .nurse⟩, ⟨1, .set, .nurse⟩, ⟨1, .set, .nurse⟩, ⟨4, .go, .nurse⟩,
        ⟨5, .set, .nurse⟩, ⟨6, .pulse 2, .nurse⟩, ⟨12, .stop, .nurse⟩]
    cues.Pairwise (·.time ≤ ·.time) ∧
      (∀ voice, Reached {} cues voice (states {} .silent cues voice)) ∧
      ∀ beat ∈ (emissions {} .silent cues).beats,
        ∃ cue, AsksFor {} cues cue beat ∧ cue.time < beat.time := by
  intro cues
  have ordered : cues.Pairwise (·.time ≤ ·.time) := by decide
  obtain ⟨hr, hall, hlt⟩ := voices_reach {} ordered
  refine ⟨ordered, hr cues (List.prefix_refl cues), fun beat hb => ?_⟩
  obtain ⟨cue, ha⟩ := hall beat hb
  exact ⟨cue, ha, hlt cue beat ha⟩

end CueCheck
