import CueCheck.Proofs.Cue.Numbers
import CueCheck.Proofs.Cue.Spread

/-!
# The runs that a list of cues drains

A cue that ends a run draws the beats of the run that are due. Whether they come to an end depends
on the times of the cues.

- **The relation** (`Drains`): a cue of a list ends a run that has beats.
- **Ends** (`drained_ends`): where the times of the cues are spread, every run that is drained ends,
  and the beats before its end are drawn, all of them and no others.
- **Overflow** (`Run.isDue_of_overflow`, `Run.isDue_largest`): a term that overflows is due at every
  finite end, and every term is due at the largest number. So finite times alone do not make a run
  end (`drained_endless`).
-/

namespace CueCheck

/-- A cue of the list ends a run in progress, whose beats up to then are drawn. -/
inductive Drains {α : Type} [Scalar α] (options : Options) (cues : List (Cue α)) (run : Run α) :
    α → Prop
  | intro {before after : List (Cue α)} {cue : Cue α}
      (split : cues = before ++ cue :: after)
      (ends : cue.kind.endsRun options = true)
      (starts : (states options .silent before (Sources.voiceOf options cue)).start? =
        some run.start)
      (plays : (states options .silent before (Sources.voiceOf options cue)).playing = run.pattern)
      (playable : run.pattern.isPlayable = true) :
      Drains options cues run cue.time

variable {options : Options} {bound gap count : ℚ} {cues : List (Cue Float)} {run : Run Float}
  {stop : Float}

/-! ## Runs that end -/

/-- The patterns that a voice plays are tame. -/
theorem isTame_playing (options : Options) (fits : Fits bound gap count)
    (spread : Spread bound gap (cues.map (·.time))) (few : (cues.length : ℚ) ≤ count)
    (voice : Voice) :
    (states options .silent cues voice).playing.IsTame (gap / (16 * count)) (8 * bound) := by
  refine (patterns_states (P := (Pattern.IsTame · (gap / (16 * count)) (8 * bound))) (.inl rfl)
    fun before cue hb previous pattern hp hc => ?_).2
  have hmem {c : Cue Float} (h : c ∈ before ++ [cue]) : c.time ∈ cues.map (·.time) :=
    List.mem_map_of_mem (hb.subset h)
  refine Pattern.close_isTame fits spread (hmem (by simp)) (fun m hm => ?_) ?_ hp hc
  · obtain ⟨c, hc, ht⟩ := exists_cue_of_mem_pendingMarkers hm
    rw [← ht]
    exact hmem (List.mem_append_left _ hc)
  · refine le_trans (Nat.cast_le.mpr ?_) few
    exact (length_pendingMarkers_le before).trans
      ((List.prefix_append before [cue]).trans hb).length_le

/-- A drained run stays away from the ends of the range. -/
theorem isModerate_of_drains (fits : Fits bound gap count)
    (spread : Spread bound gap (cues.map (·.time))) (few : (cues.length : ℚ) ≤ count)
    (h : Drains options cues run stop) :
    run.IsModerate stop (gap / (16 * count)) (8 * bound) := by
  obtain ⟨split, ends, starts, plays, playable⟩ := h
  rename_i before after cue
  have hmost : bound ≤ 8 * bound := by
    have := fits.bound_nonneg
    linarith
  have hwithin {c : Cue Float} (hc : c ∈ cues) : IsWithin (8 * bound) c.time :=
    (spread.within _ (List.mem_map_of_mem hc)).mono hmost
  refine ⟨?_, hwithin (by simp [split]), ?_⟩
  · obtain ⟨earlier, go, between, hsplit, -, -, ht, -, -⟩ := started_of_start? starts
    rw [← ht]
    exact hwithin (by simp [split, hsplit])
  · rw [← plays]
    have hbefore : before <+: cues := ⟨_, split.symm⟩
    have few' : (before.length : ℚ) ≤ count := (Nat.cast_le.mpr hbefore.length_le).trans few
    have spread' := spread.sublist (hbefore.sublist.map (·.time))
    rcases isTame_playing options fits spread' few' (Sources.voiceOf options cue) with h | h
    · rw [← plays, h] at playable
      simp [Pattern.isPlayable, Pattern.empty] at playable
    · exact h

/-- Where at most `2 ^ r` cues lie within `2 ^ b` of zero, any two of them at one time or at least
`1 / 2 ^ a` apart, each run that is drained ends, and all its beats before the end are drawn. -/
theorem drained_ends (options : Options) {a b r : ℕ} (fits : a + b + r ≤ 900)
    (few : cues.length ≤ 2 ^ r) (spread : Spread (2 ^ b) (1 / 2 ^ a) (cues.map (·.time)))
    (h : Drains options cues run stop) :
    ∃ n, run.EndsAt stop n ∧ run.beats stop = (List.range n).map run.beat := by
  have fits' := fits_two_pow fits
  have few' : (cues.length : ℚ) ≤ 2 ^ r := by exact_mod_cast few
  have hrun := isModerate_of_drains fits' spread few' h
  obtain ⟨-, -, -, -, playable⟩ := h
  exact Run.ends_of_isModerate fits'.isScale hrun playable

/-- A set half a beat after a get, a go and a stop. -/
theorem drained_ends_half_beats :
    let cues : List (Cue Float) :=
      [⟨Scalar.ofInt 0, .get, .nurse⟩, ⟨Scalar.ofDecimal 5 (-1), .set, .nurse⟩,
        ⟨Scalar.ofInt 2, .go, .nurse⟩, ⟨Scalar.ofInt 7, .stop, .nurse⟩]
    let run : Run Float := ⟨Scalar.ofInt 2, (states {} .silent (cues.take 3) .nurse).playing⟩
    Drains {} cues run (Scalar.ofInt 7) ∧ ∃ n, run.EndsAt (Scalar.ofInt 7) n := by
  intro cues run
  have spread : Spread (2 ^ 3) (1 / 2 ^ 1) (cues.map (·.time)) := by
    refine spread_of_grid (by norm_num) (List.forall_mem_map.mpr ?_)
    rw [List.forall_mem_cons, List.forall_mem_cons, List.forall_mem_cons, List.forall_mem_singleton]
    refine ⟨?_, ?_, ?_, ?_⟩
    · exact ⟨0, by decide +kernel, by norm_num⟩
    · exact ⟨1, by decide +kernel, by norm_num⟩
    · exact ⟨4, by decide +kernel, by norm_num⟩
    · exact ⟨14, by decide +kernel, by norm_num⟩
  have split : cues = cues.take 3 ++ [⟨Scalar.ofInt 7, .stop, .nurse⟩] := rfl
  have drains : Drains {} cues run (Scalar.ofInt 7) :=
    .intro split rfl rfl rfl (by decide +kernel)
  obtain ⟨n, hn, -⟩ := drained_ends {} (r := 2) (by norm_num) (by decide) spread drains
  exact ⟨drains, n, hn⟩

/-! ## Runs that do not end -/

/-- A term that overflows is due at every finite end. -/
theorem Run.isDue_of_overflow {k : ℕ} (h : Binary64.exact (run.term k) = .infinite false)
    (hstop : Scalar.isFinite stop = true) : run.isDue stop k = true := by
  unfold isDue
  rw [Binary64.almostEqual_of_infinite h hstop, Bool.or_true]

/-- A run does not end at the largest number. -/
theorem Run.isDue_largest (h : run.IsFinite) (playable : run.pattern.isPlayable = true) (k : ℕ) :
    run.isDue Binary64.largest k = true := by
  by_cases overflows : Binary64.exact (run.term k) = .infinite false
  · exact isDue_of_overflow overflows Binary64.isFinite_largest
  · exact Binary64.less_or_almostEqual_largest (term_ne_nan h playable k) overflows

/-- Finite cues in time order drain a run that does not end: a set, a go three eighths of the range
later and a stop at the largest number. All terms but the first overflow. -/
theorem drained_endless :
    let cues : List (Cue Float) :=
      [⟨Scalar.ofInt 0, .set, .nurse⟩, ⟨.ofBits 0x7FD8000000000000, .go, .nurse⟩,
        ⟨Binary64.largest, .stop, .nurse⟩]
    let run : Run Float :=
      ⟨.ofBits 0x7FD8000000000000, (states {} .silent (cues.take 2) .nurse).playing⟩
    (∀ cue ∈ cues, Scalar.isFinite cue.time = true) ∧
      cues.Pairwise (fun a b => Scalar.less a.time b.time = true) ∧
      Drains {} cues run Binary64.largest ∧ ¬∃ n, run.EndsAt Binary64.largest n := by
  intro cues run
  have playable : run.pattern.isPlayable = true := by decide +kernel
  have finite : run.IsFinite := ⟨by decide +kernel, by decide +kernel, by decide +kernel⟩
  have split : cues = cues.take 2 ++ [⟨Binary64.largest, .stop, .nurse⟩] := rfl
  refine ⟨by decide +kernel, by decide +kernel, .intro split rfl rfl rfl playable, ?_⟩
  rintro ⟨n, -, hpast⟩
  rw [Run.isDue_largest finite playable n] at hpast
  cases hpast

end CueCheck
