import CueCheck.Proofs.Cue.Ending
import CueCheck.Proofs.Cue.Reachable

/-!
# The beats of an ordered run

Over exact rationals, a run of a pattern whose offsets ascend within one interval.

- **Terms in order** (`Run.monotone_term`): the instants of the beats ascend, so once a beat is not
  due, none after it is (`Run.isDue_of_le`).
- **A term past the end** (`Run.exists_past`): the instants grow beyond any end within the horizon.
- **The result** (`Source.dueBeats_chained`): the beats that a source draws are all those that are
  due, in order, each with its neighbours.
-/

namespace CueCheck

open Scalar (less)

/-- The offsets ascend, and the last comes no later than the first of the next repetition. -/
structure Pattern.IsOrdered (pattern : Pattern Rat) : Prop where
  ascending : pattern.offsets.Pairwise (· ≤ ·)
  within : ∀ first ∈ pattern.offsets.head?, ∀ last ∈ pattern.offsets.getLast?,
    last ≤ first + pattern.interval

namespace Run

variable {run : Run Rat} {stop : Rat}

/-! ## Terms in order -/

/-- What is due stays due when it comes earlier. -/
theorem isDue_of_le {i k : Nat} (h : run.term i ≤ run.term k) (hk : run.isDue stop k = true) :
    run.isDue stop i = true := by
  unfold isDue at hk ⊢
  rw [Bool.or_eq_true, less_iff] at hk ⊢
  rcases lt_or_ge (run.term i) stop with hlt | hge
  · exact .inl hlt
  · right
    rcases hk with hk | hk
    · exact absurd (h.trans_lt hk) (not_lt.mpr hge)
    · rw [almostEqual_comm] at hk ⊢
      exact almostEqual_of_between hge h hk

theorem term_mul_add {q r : Nat} (hr : r < run.pattern.offsets.length) :
    run.term (run.pattern.offsets.length * q + r) =
      run.start + q * run.pattern.interval + run.pattern.offsets[r] := by
  unfold term
  simp only [Nat.mul_add_mod, Nat.mod_eq_of_lt hr, Nat.mul_add_div (Nat.zero_lt_of_lt hr),
    Nat.div_eq_of_lt hr, Nat.add_zero, ← List.getElem_eq_getD Scalar.zero (h := hr),
    Scalar.ofInt_rat, Int.cast_natCast]

/-- The terms of a run ascend, from one repetition to the next too. -/
theorem monotone_term (hne : run.pattern.offsets ≠ []) (h : run.pattern.IsOrdered) :
    Monotone run.term := by
  refine monotone_nat_of_le_succ fun k => ?_
  have hn : 0 < run.pattern.offsets.length := List.length_pos_iff.mpr hne
  have hr := Nat.mod_lt k hn
  rw [← Nat.div_add_mod k run.pattern.offsets.length]
  generalize k / run.pattern.offsets.length = q at *
  generalize k % run.pattern.offsets.length = r at *
  rw [term_mul_add hr]
  rcases Nat.lt_or_ge (r + 1) run.pattern.offsets.length with hlt | hge
  · have hle := List.pairwise_iff_getElem.mp h.ascending r (r + 1) hr hlt (Nat.lt_succ_self r)
    rw [Nat.add_assoc, term_mul_add hlt]
    linarith
  · -- The last beat of a repetition; the next one is the first of another.
    obtain rfl : r = run.pattern.offsets.length - 1 := by omega
    have hle := h.within _ (List.head?_eq_getElem? ▸ List.getElem?_eq_getElem hn) _
      (List.getLast?_eq_getElem? ▸ List.getElem?_eq_getElem hr)
    have hnext : run.pattern.offsets.length * q + (run.pattern.offsets.length - 1) + 1 =
        run.pattern.offsets.length * (q + 1) + 0 := by
      rw [Nat.mul_succ]
      omega
    rw [hnext, term_mul_add hn]
    push_cast
    linarith

/-! ## A term past the end -/

/-- A term that is past the end by three times the magnitude of the end is not due. -/
theorem isDue_eq_false {k : Nat} (h : stop + 3 * |stop| < run.term k) :
    run.isDue stop k = false := by
  unfold isDue
  rw [Bool.or_eq_false_iff, less_eq_false_iff, ← Bool.not_eq_true, almostEqual_iff]
  have hstop := abs_nonneg stop
  refine ⟨by linarith, fun he => ?_⟩
  have habs := le_abs_self stop
  have hneg := neg_abs_le stop
  rw [Rat.abs_of_nonneg (by linarith : 0 ≤ run.term k - stop)] at he
  rcases abs_eq_or stop with ⟨h0, e0⟩ | ⟨h0, e0⟩ <;>
    rcases abs_eq_or (run.term k) with ⟨h1, e1⟩ | ⟨h1, e1⟩ <;>
    rcases abs_cases stop with ⟨e, _⟩ | ⟨e, _⟩ <;> linarith

/-- A run is past its end within its horizon. -/
theorem exists_past (playable : run.pattern.isPlayable = true) (stop : Rat) :
    ∃ k < run.horizon stop, run.isDue stop k = false := by
  obtain ⟨hinterval, hne⟩ := Pattern.isPlayable_iff.mp playable
  have hinterval' : 0 < run.pattern.interval := less_iff.mp hinterval
  have hsize (x : Rat) : size x = |x| := size_of_exact (Scalar.exact_rat x)
  have hn : 0 < run.pattern.offsets.length := List.length_pos_iff.mpr hne
  obtain ⟨most, hmost⟩ : ∃ most, most = largest (run.pattern.offsets.map size) := ⟨_, rfl⟩
  obtain ⟨hmost0, hle⟩ := largest_le_iff.mp hmost.ge
  have hfirst : |run.pattern.offsets[0]| ≤ most := by
    rw [← hsize]
    exact hle _ (List.mem_map_of_mem (List.getElem_mem hn))
  have hstart := abs_nonneg run.start
  have hstop := abs_nonneg stop
  have hreach : 0 ≤ 4 * (|run.start| + |stop| + most) := by linarith
  obtain ⟨hfar, -⟩ := ceil_mul_bounds hinterval' hreach
  have hhorizon : run.horizon stop = run.pattern.offsets.length *
      ((4 * (|run.start| + |stop| + most) / run.pattern.interval).ceil.toNat + 1 + 1) := by
    unfold horizon
    simp only [hsize, ← hmost, abs_of_pos hinterval']
  rw [hhorizon]
  generalize (4 * (|run.start| + |stop| + most) / run.pattern.interval).ceil.toNat + 1 = group at *
  -- The first beat of the repetition before the horizon.
  refine ⟨run.pattern.offsets.length * group + 0, ?_, isDue_eq_false ?_⟩
  · exact Nat.mul_lt_mul_of_pos_left (Nat.lt_succ_self _) hn
  · rw [term_mul_add hn]
    have := neg_abs_le run.start
    have := neg_abs_le run.pattern.offsets[0]
    have := le_abs_self stop
    linarith

/-- A beat of an ordered run is due if and only if it comes before the end. -/
theorem EndsAt.lt_iff_isDue {n : ℕ} (h : run.EndsAt stop n) (ascends : Monotone run.term) (k : ℕ) :
    k < n ↔ run.isDue stop k = true := by
  refine ⟨h.due k, fun hk => not_le.mp fun hle => ?_⟩
  have hn := isDue_of_le (ascends hle) hk
  rw [h.past] at hn
  cases hn

end Run

/-! ## The beats of a source -/

/-- A source that plays an ordered pattern draws finitely many beats up to an end: those whose
instants come before it or equal it up to tolerance, all of them, each with the ones around it. -/
theorem Source.dueBeats_chained {source : Source Rat} {start : Rat}
    (active : source.start? = some start) (playable : source.playing.isPlayable = true)
    (ordered : source.playing.IsOrdered) (stop : Rat) :
    let n := source.playing.offsets.length
    let term (k : ℕ) : Rat :=
      start + (k / n : ℕ) * source.playing.interval + source.playing.offsets.getD (k % n) 0
    let beat (k : ℕ) : ExpectedBeat Rat :=
      { time := term k
        prev := if k = 0 then none else some (term (k - 1))
        next := some (term (k + 1)) }
    ∃ count, (∀ k, k < count ↔ term k < stop ∨ almostEqual (term k) stop = true) ∧
      source.dueBeats stop = (List.range count).map beat ∧
        ∀ limit, Run.firstBeats ⟨start, source.playing⟩ stop limit =
          (List.range (min limit count)).map beat := by
  intro n term beat
  let run : Run Rat := ⟨start, source.playing⟩
  have hterm : run.term = term := by
    funext k
    exact congrArg (start + · * source.playing.interval + _) (Int.cast_natCast _)
  have hbeat : run.beat = beat := by
    funext k
    unfold Run.beat
    rw [hterm]
  have hne : run.pattern.offsets ≠ [] := (Pattern.isPlayable_iff.mp playable).2
  obtain ⟨k, hk, past⟩ := Run.exists_past (show run.pattern.isPlayable = true from playable) stop
  obtain ⟨count, hends, hbeats⟩ := Run.beats_eq playable past hk
  refine ⟨count, fun i => ?_, ?_, fun limit => ?_⟩
  · rw [hends.lt_iff_isDue (Run.monotone_term hne ordered), ← hterm]
    unfold Run.isDue
    rw [Bool.or_eq_true, less_iff]
  · unfold dueBeats
    rw [active, ← hbeat]
    exact hbeats
  · rw [← hbeat]
    exact hends.firstBeats_eq playable limit

/-- Offsets that reach to the next repetition: two beats of this run fall together. -/
theorem Source.dueBeats_chained_coincident :
    let source : Source Rat := ⟨some 4, .empty, ⟨2, [1, 2, 3], false⟩, []⟩
    source.start? = some 4 ∧ source.playing.isPlayable = true ∧ source.playing.IsOrdered ∧
      (source.dueBeats 7).length = 4 := by
  intro source
  have active : source.start? = some 4 := rfl
  have playable : source.playing.isPlayable = true := by decide +kernel
  have ordered : source.playing.IsOrdered := ⟨by decide +kernel, by decide +kernel⟩
  obtain ⟨count, due, hbeats, -⟩ := dueBeats_chained active playable ordered 7
  have h3 := (due 3).mpr (by decide +kernel)
  have h4 := (due 4).not.mpr (by decide +kernel)
  refine ⟨active, playable, ordered, ?_⟩
  rw [hbeats, List.length_map, List.length_range]
  omega

end CueCheck
