import CueCheck.Proofs.Binary64.Distance
import CueCheck.Proofs.Binary64.Lookup
import CueCheck.Proofs.Cue.Closing
import CueCheck.Proofs.Cue.Origin

/-!
# Expected beats are numbers

Cues at finite times ask for beats that may overflow, but none of them is NaN, nor is a neighbour of
one.

- **Offsets** (`Pattern.offsets_isFinite`): a set is told apart from the get before it, so its
  distance from that get is finite.
- **Intervals** (`Run.interval_isFinite`): the length of a pattern is finite too, but its share for
  one repetition may overflow. Then the first term is NaN, and the run has no beats.
- **Runs** (`Run.term_ne_nan`) and **pulses** (`isNumber_of_mem_squareBeats`): the terms and the
  single beats are sums of finite numbers and of products that overflow to infinity at most.
- **The result** (`AsksFor.isNumber`): no cue asks for NaN.
-/

namespace CueCheck

open Binary64
open Scalar (isFinite less ofInt)

/-- Neither the time of a beat nor a neighbour of it is NaN. -/
structure ExpectedBeat.IsNumber (beat : ExpectedBeat Float) : Prop where
  time : exact beat.time ≠ .nan
  prev : ∀ t ∈ beat.prev, exact t ≠ .nan
  next : ∀ t ∈ beat.next, exact t ≠ .nan

/-- The time of a cue is finite, and so is the number of beats that it counts. -/
structure Cue.IsFinite (cue : Cue Float) : Prop where
  time : isFinite cue.time = true
  count : (cue.kind.count : ℚ) ≤ greatest

/-! ## Offsets -/

namespace Pattern

variable {pending : List (Marker Float)} {time : Float} {previous pattern : Pattern Float}

/-- The offsets of a pattern are distances of times that the tolerance tells apart. -/
theorem offsets_isFinite (markers : ∀ m ∈ pending, isFinite m.time = true)
    (close_finite : isFinite time = true)
    (before : ∀ offset ∈ previous.offsets, isFinite offset = true)
    (h : close pending time previous = some pattern) :
    ∀ offset ∈ pattern.offsets, isFinite offset = true := by
  intro offset ho
  obtain ⟨-, -, rfl⟩ | ⟨start, rfl, hlone⟩ | ⟨start, rest, rfl, hlaid⟩ := close_cases h
  · exact before offset ho
  · obtain ⟨ends, rfl⟩ := ofLoneSet_eq_some_iff.mp hlone
    obtain rfl := List.mem_singleton.mp ho
    unfold endsAtStart at ends
    rw [Bool.or_eq_false_iff] at ends
    exact isFinite_sub_of_almostEqual_eq_false close_finite
      (markers ⟨.set, start⟩ List.mem_cons_self) ends.2
  · rcases hlaid.shape with ⟨-, rfl⟩ | ⟨-, rfl⟩
    · cases ho
    · obtain ⟨m, hm, kind, rfl⟩ := mem_offsetsOf.mp (List.mem_of_mem_take ho)
      exact isFinite_sub_of_almostEqual_eq_false (markers m hm)
        (markers ⟨.get, start⟩ List.mem_cons_self) (hlaid.setsLater m hm kind)

end Pattern

variable {options : Options} {cues : List (Cue Float)} {voice : Voice}

theorem isFinite_pendingMarkers (finite : ∀ cue ∈ cues, cue.IsFinite) :
    ∀ m ∈ pendingMarkers options voice cues, isFinite m.time = true := by
  intro m hm
  obtain ⟨cue, hc, ht⟩ := exists_cue_of_mem_pendingMarkers hm
  rw [← ht]
  exact (finite cue hc).time

/-- All patterns that a voice confirms and plays have finite offsets. -/
theorem offsets_states (options : Options) (voice : Voice) (finite : ∀ cue ∈ cues, cue.IsFinite) :
    (∀ offset ∈ (states options .silent cues voice).pattern.offsets, isFinite offset = true) ∧
      ∀ offset ∈ (states options .silent cues voice).playing.offsets, isFinite offset = true := by
  refine patterns_states (P := fun pattern => ∀ offset ∈ pattern.offsets, isFinite offset = true)
    (fun _ h => nomatch h) fun before cue hb previous pattern hp hc => ?_
  have prior : ∀ c ∈ before ++ [cue], c.IsFinite := fun c h => finite c (hb.subset h)
  exact Pattern.offsets_isFinite
    (isFinite_pendingMarkers fun c h => prior c (List.mem_append_left _ h))
    (prior cue (by simp)).time hp hc

/-! ## Runs -/

namespace Run

variable {run : Run Float} {stop : Float} {beat : ExpectedBeat Float}

/-- A run of finite numbers. -/
structure IsFinite (run : Run Float) : Prop where
  start : isFinite run.start = true
  interval : isFinite run.pattern.interval = true
  offsets : ∀ offset ∈ run.pattern.offsets, isFinite offset = true

/-- The terms of a run of finite numbers are numbers, though they may overflow. -/
theorem term_ne_nan (h : run.IsFinite) (playable : run.pattern.isPlayable = true) (k : ℕ) :
    exact (run.term k) ≠ .nan := by
  obtain ⟨hinterval, hoffsets⟩ := Pattern.isPlayable_iff.mp playable
  have hne : exact run.pattern.interval ≠ .finite 0 := by
    intro h0
    exact lt_irrefl (0 : ℚ) (lt_of_less exact_ofInt_zero h0 hinterval)
  have hlt : k % run.pattern.offsets.length < run.pattern.offsets.length :=
    Nat.mod_lt _ (List.length_pos_iff.mpr hoffsets)
  have hoffset : isFinite
      (run.pattern.offsets.getD (k % run.pattern.offsets.length) Scalar.zero) = true := by
    rw [← List.getElem_eq_getD Scalar.zero (h := hlt)]
    exact h.offsets _ (List.getElem_mem _)
  have hgroup := mul_ne_nan (ofInt_ne_nan (k / run.pattern.offsets.length)) h.interval hne
  have hstart := add_ne_nan (exact_ne_nan h.start) hgroup (.inl h.start)
  exact add_ne_nan hstart (exact_ne_nan hoffset) (.inr hoffset)

/-- A run whose interval has overflowed has no first beat: no repetitions of it take up NaN. -/
theorem interval_isFinite (playable : run.pattern.isPlayable = true)
    (due : run.isDue stop 0 = true) : isFinite run.pattern.interval = true := by
  have interval : exact run.pattern.interval ≠ .nan := by
    intro hn
    have positive := (Pattern.isPlayable_iff.mp playable).1
    rw [less_of_nan (.inr hn)] at positive
    cases positive
  have first : exact (run.term 0) ≠ .nan := by
    intro hn
    unfold isDue at due
    rw [less_of_nan (.inl hn), Bool.false_or] at due
    exact exact_ne_nan_of_almostEqual due hn
  by_contra infinite
  obtain ⟨s, hs⟩ := exists_unpack_infinity interval infinite
  have term_zero : run.term 0 = run.start + ofInt 0 * run.pattern.interval +
      run.pattern.offsets.getD 0 Scalar.zero := by
    unfold term
    simp only [Nat.zero_div, Nat.zero_mod]
    rfl
  rw [term_zero] at first
  exact first (exact_add_of_nan (.inl (exact_add_of_nan (.inr (exact_zero_mul hs)))))

/-- The beats of a run from a finite start at finite offsets are numbers. -/
theorem isNumber_of_mem_beats (start : isFinite run.start = true)
    (offsets : ∀ offset ∈ run.pattern.offsets, isFinite offset = true)
    (h : beat ∈ run.beats stop) : beat.IsNumber := by
  obtain ⟨playable, due, k, rfl⟩ := exists_of_mem_beats h
  have finite : run.IsFinite := ⟨start, interval_isFinite playable due, offsets⟩
  refine ⟨term_ne_nan finite playable k, fun t ht => ?_, fun t ht => ?_⟩
  · unfold beat at ht
    simp only [Option.mem_def] at ht
    split at ht
    · cases ht
    · rw [← Option.some.inj ht]
      exact term_ne_nan finite playable _
  · rw [← Option.some.inj ht]
    exact term_ne_nan finite playable _

end Run

/-! ## Pulses -/

/-- The share of a distance at which a beat of a triangle comes does not overflow. -/
theorem isFinite_triangleShare {i count : ℕ} (hi : i < count) (hc : (count : ℚ) ≤ greatest) :
    isFinite (ofInt 3 / ofInt 2 + ofInt i / ofInt count : Float) = true := by
  have hi : (i : ℚ) + 1 ≤ count := by exact_mod_cast hi
  have hi0 : (0 : ℚ) ≤ i := Nat.cast_nonneg i
  obtain ⟨r, hr, hrerror⟩ := ofInt_error (show (i : ℚ) ≤ greatest by linarith)
  obtain ⟨s, hs, hserror⟩ := ofInt_error hc
  rw [abs_le] at hrerror hserror
  have hspos : 0 < s := by linarith
  have hquotient : |r / s| ≤ 2 := by
    rw [abs_div, abs_of_pos hspos, div_le_iff₀ hspos, abs_le]
    constructor <;> linarith
  have hgreatest : (2 : ℚ) ^ 3 ≤ greatest := two_pow_le_greatest (by decide)
  have hleast : least ≤ 2 ^ (0 : ℤ) := least_le_two_zpow (by decide)
  rw [zpow_zero] at hleast
  obtain ⟨d, hd, hderror⟩ := div_error hr hs hspos.ne' (by linarith)
  have hd4 : |d| ≤ 4 := by
    have := abs_sub_abs_le_abs_sub d (r / s)
    linarith
  have hsum : |3 / 2 + d| ≤ greatest := by
    rw [abs_le] at hd4 ⊢
    constructor <;> linarith
  have hhalves : exact (ofInt 3 / ofInt 2 : Float) = .finite (3 / 2) := by decide +kernel
  obtain ⟨t, ht, -⟩ := add_error hhalves hd hsum
  exact isFinite_of_exact ht

/-- The beats of a pulse of finitely many beats at a finite time are numbers. -/
theorem isNumber_of_mem_squareBeats {pattern : Pattern Float} {time : Float} {count : ℤ}
    {triangles : Bool} {beat : ExpectedBeat Float}
    (offsets : ∀ offset ∈ pattern.offsets, isFinite offset = true)
    (time_finite : isFinite time = true) (few : (count : ℚ) ≤ greatest)
    (h : beat ∈ squareBeats pattern time count triangles) : beat.IsNumber := by
  have single {tick share : Float} (ht : isFinite tick = true) (hs : isFinite share = true) :
      (ExpectedBeat.mk (time + tick * share) none none).IsNumber :=
    ⟨add_ne_nan (exact_ne_nan time_finite) (mul_ne_nan_of_isFinite ht hs) (.inl time_finite),
      (fun _ h => nomatch h), (fun _ h => nomatch h)⟩
  unfold squareBeats at h
  split at h
  · rename_i tick rest _ hoffsets
    have htick : isFinite tick = true := offsets tick (by rw [hoffsets]; exact List.mem_cons_self)
    split at h
    · obtain ⟨i, hi, rfl⟩ := List.mem_map.mp h
      obtain ⟨n, rfl⟩ := Int.eq_ofNat_of_zero_le (show 0 ≤ count by
        have := List.mem_range.mp hi
        omega)
      exact single htick (isFinite_triangleShare (List.mem_range.mp hi) (by exact_mod_cast few))
    · obtain ⟨i, hi, rfl⟩ := List.mem_map.mp h
      rw [List.mem_range'_1] at hi
      have hi : (i : ℚ) ≤ count := by exact_mod_cast (show (i : ℤ) ≤ count by omega)
      obtain ⟨r, hr, -⟩ := ofInt_error (hi.trans few)
      exact single htick (isFinite_of_exact hr)
  · cases h

/-! ## The result -/

/-- What cues at finite times ask for is a number, and so are its neighbours. -/
theorem AsksFor.isNumber (finite : ∀ cue ∈ cues, cue.IsFinite) {cue : Cue Float}
    {beat : ExpectedBeat Float} (h : AsksFor options cues cue beat) : beat.IsNumber := by
  cases h with
  | @run before between after _ ending _ split starts goes own ends due =>
    have prior : ∀ c ∈ before ++ [cue], c.IsFinite := fun c hc => finite c (by
      rw [split]
      simp only [List.mem_append, List.mem_cons] at hc ⊢
      tauto)
    refine Run.isNumber_of_mem_beats ?_ ?_ due
    · exact (prior cue (by simp)).time
    · exact (offsets_states options _ prior).2
  | @pulse before after _ count pattern _ split counts confirms plays =>
    have cue_finite : cue.IsFinite := finite cue (by rw [split]; simp)
    have prior : ∀ c ∈ before, c.IsFinite := fun c hc =>
      finite c (by rw [split]; exact List.mem_append_left _ hc)
    have few := cue_finite.count
    rw [counts] at few
    refine isNumber_of_mem_squareBeats ?_ cue_finite.time few plays
    have closes := Source.close_of_confirmed confirms
    rw [pending_states] at closes
    exact Pattern.offsets_isFinite (isFinite_pendingMarkers prior) cue_finite.time
      (offsets_states options _ prior).1 closes

end CueCheck
