import CueCheck.Proofs.Binary64.Distance
import CueCheck.Proofs.Cue.Ending
import CueCheck.Proofs.Cue.Merging
import CueCheck.Proofs.Cue.Numbers

/-!
# Where the same beat is expected twice

Repeats are dropped among neighbours only, in order of time, next beat and beat before. A beat at
nearly the same time, but with other neighbours, may stand between two that are the same, and then
both are kept. Nothing else keeps them apart.

- **Order** (`ExpectedBeat.precedes_eq_places`): beats are sorted by places on the extended number
  line, a missing neighbour being at negative infinity. That needs numbers, finite or not.
- **Between** (`ExpectedBeat.Separates`): what stands between two beats in that order is at a time
  between theirs. Unless times are very great, it equals both up to tolerance.
- **The result** (`play_keepsApart`): two beats that are the same are never neighbours, and the one
  after the first of them separates them.
-/

namespace CueCheck

open Binary64
open Scalar (isFinite less)

namespace ExpectedBeat

variable {a b c : ExpectedBeat Float}

/-! ## Order -/

/-- The value of a neighbour; a missing one counts as negative infinity. -/
def neighbourValue (neighbour : Option Float) : Extended :=
  neighbour.elim (.infinite true) Scalar.exact

/-- The places of a beat, in the order in which they count. -/
def places (beat : ExpectedBeat Float) : Place ×ₗ Place ×ₗ Place :=
  toLex ((Scalar.exact beat.time).place,
    toLex ((neighbourValue beat.next).place, (neighbourValue beat.prev).place))

theorem neighbourLess_eq_places {s t : Option Float} (hs : ∀ x ∈ s, exact x ≠ .nan)
    (ht : ∀ x ∈ t, exact x ≠ .nan) :
    neighbourLess s t = decide ((neighbourValue s).place < (neighbourValue t).place) := by
  cases s with
  | none =>
    cases t with
    | none => exact (decide_eq_false (lt_irrefl _)).symm
    | some y =>
      cases hy : Scalar.exact y with
      | nan => exact absurd hy (ht y rfl)
      | finite q =>
        simp [neighbourLess, neighbourValue, hy, Extended.place, Prod.Lex.toLex_lt_toLex]
      | infinite negative =>
        cases negative <;>
          simp [neighbourLess, neighbourValue, hy, Extended.place, Prod.Lex.toLex_lt_toLex]
  | some x =>
    cases t with
    | none =>
      cases hx : Scalar.exact x with
      | infinite negative =>
        cases negative <;>
          simp [neighbourLess, neighbourValue, hx, Extended.place, Prod.Lex.toLex_lt_toLex]
      | _ => simp [neighbourLess, neighbourValue, hx, Extended.place, Prod.Lex.toLex_lt_toLex]
    | some y => exact less_eq_place (hs x rfl) (ht y rfl)

theorem neighbourTies_eq_places {s t : Option Float} (hs : ∀ x ∈ s, exact x ≠ .nan)
    (ht : ∀ x ∈ t, exact x ≠ .nan) :
    neighbourTies s t = decide ((neighbourValue s).place = (neighbourValue t).place) := by
  simp only [Extended.place_injective.eq_iff]
  cases s with
  | none =>
    cases t with
    | none => rfl
    | some y =>
      simp only [neighbourTies, neighbourValue, Scalar.isNegativeInfinity, beq_eq_decide]
      exact decide_eq_decide.mpr eq_comm
  | some x =>
    cases t with
    | none =>
      simp only [neighbourTies, neighbourValue, Scalar.isNegativeInfinity, beq_eq_decide]
      rfl
    | some y => exact beq_eq_exact (hs x rfl) (ht y rfl)

/-- Beats that are numbers are sorted by their places. -/
theorem precedes_eq_places (ha : a.IsNumber) (hb : b.IsNumber) :
    a.precedes b = decide (a.places < b.places) := by
  unfold precedes
  rw [beq_eq_exact ha.time hb.time, neighbourTies_eq_places ha.next hb.next,
    neighbourLess_eq_places ha.prev hb.prev, neighbourLess_eq_places ha.next hb.next,
    less_eq_place ha.time hb.time, Bool.eq_iff_iff, decide_eq_true_iff (p := a.places < b.places)]
  unfold places
  rw [Prod.Lex.toLex_lt_toLex, Prod.Lex.toLex_lt_toLex]
  by_cases ht : Scalar.exact a.time = Scalar.exact b.time
  · by_cases hn : (neighbourValue a.next).place = (neighbourValue b.next).place
    · simp [ht, hn]
    · simp [ht, hn]
  · have hp : (Scalar.exact a.time).place ≠ (Scalar.exact b.time).place :=
      Extended.place_injective.ne ht
    simp [ht, hp]

theorem time_le_of_places_le (h : a.places ≤ b.places) :
    (Scalar.exact a.time).place ≤ (Scalar.exact b.time).place := by
  unfold places at h
  rcases Prod.Lex.toLex_le_toLex.mp h with h | h
  · exact le_of_lt h
  · exact le_of_eq h.1

/-! ## Between -/

/-- A beat at a time between those of two others, and not the same as the first of them. -/
structure Separates (beat first second : ExpectedBeat Float) : Prop where
  different : first.same beat = false
  not_before : (Scalar.exact first.time).place ≤ (Scalar.exact beat.time).place
  not_after : (Scalar.exact beat.time).place ≤ (Scalar.exact second.time).place

end ExpectedBeat

/-- What stands between finite places is finite, and its value is between theirs. -/
theorem Extended.exists_finite_of_between {p r : ℚ} {e : Extended}
    (hp : (Extended.finite p).place ≤ e.place) (hr : e.place ≤ (Extended.finite r).place) :
    ∃ q, e = .finite q ∧ p ≤ q ∧ q ≤ r := by
  cases e with
  | finite q =>
    simp only [place, Prod.Lex.toLex_le_toLex] at hp hr
    exact ⟨q, rfl, by simpa using hp, by simpa using hr⟩
  | infinite negative => cases negative <;> simp [place, Prod.Lex.toLex_le_toLex] at hp hr
  | nan => simp [place, Prod.Lex.toLex_le_toLex] at hr

namespace ExpectedBeat.Separates

variable {a b c : ExpectedBeat Float}

/-- Unless the times of the two are very great, what separates them is at the same time as both, and
has other neighbours than the first. -/
theorem same_time (h : c.Separates a b) (hsame : a.same b = true) (ha : IsWithin (2 ^ 1000) a.time)
    (hb : IsWithin (2 ^ 1000) b.time) :
    almostEqual a.time c.time = true ∧ almostEqual c.time b.time = true ∧
      (sameNeighbour a.prev c.prev && sameNeighbour a.next c.next) = false := by
  obtain ⟨p, hp, hpmost⟩ := ha
  obtain ⟨r, hr, hrmost⟩ := hb
  have before := h.not_before
  have after := h.not_after
  rw [hp] at before
  rw [hr] at after
  obtain ⟨q, hq, hpq, hqr⟩ := Extended.exists_finite_of_between before after
  have bound {t : ℚ} (ht : |t| ≤ 2 ^ 1000) : 8192 * (2 * |t|) ≤ greatest := by
    calc 8192 * (2 * |t|) = 2 ^ 14 * |t| := by ring
      _ ≤ 2 ^ 14 * 2 ^ 1000 := by gcongr
      _ = 2 ^ (14 + 1000) := (pow_add 2 14 1000).symm
      _ ≤ greatest := two_pow_le_greatest (by decide)
  obtain ⟨hac, hcb⟩ := Binary64.almostEqual_of_between hp hq hr (bound hpmost) (bound hrmost)
    hpq hqr (same_iff.mp hsame).1
  have different := h.different
  unfold same at different
  rw [hac, Bool.true_and] at different
  exact ⟨hac, hcb, different⟩

end ExpectedBeat.Separates

/-! ## The result -/

/-- Where the same beat stands at two positions, the entry right after the first one separates it
from the second. -/
theorem play_keepsApart (options : Options) (cues : List (Cue Float))
    (finite : ∀ cue ∈ cues, cue.IsFinite) :
    let expected := (play options cues).expected
    ∀ (i j : ℕ) (a b : ExpectedBeat Float), i < j → expected[i]? = some a → expected[j]? = some b →
      a.same b = true →
      i + 1 < j ∧ ∃ c, expected[i + 1]? = some c ∧ c.Separates a b ∧
        (IsWithin (2 ^ 1000) a.time → IsWithin (2 ^ 1000) b.time →
          almostEqual a.time c.time = true ∧ almostEqual c.time b.time = true ∧
            (ExpectedBeat.sameNeighbour a.prev c.prev &&
              ExpectedBeat.sameNeighbour a.next c.next) = false) := by
  intro expected i j a b hij ha hb hsame
  have sorts : SortsByKey ExpectedBeat.precedes ExpectedBeat.places
      (emissions options .silent cues).beats := by
    have number {beat : ExpectedBeat Float} (h : beat ∈ (emissions options .silent cues).beats) :
        beat.IsNumber := by
      obtain ⟨cue, asks⟩ := exists_asksFor h
      exact asks.isNumber finite
    exact fun a ha b hb => ExpectedBeat.precedes_eq_places (number ha) (number hb)
  have ordered : expected.Pairwise fun a b => a.places ≤ b.places :=
    (pairwise_sortBy sorts).sublist (collapseBy_sublist _)
  have apart : expected.IsChain fun a b => ¬a.same b = true := isChain_collapseBy _
  obtain ⟨hi, rfl⟩ := List.getElem?_eq_some_iff.mp ha
  obtain ⟨hj, rfl⟩ := List.getElem?_eq_some_iff.mp hb
  have not_next : i + 1 ≠ j := by
    rintro rfl
    exact List.isChain_iff_getElem.mp apart i hj hsame
  have hk : i + 1 < expected.length := by omega
  have separates : expected[i + 1].Separates expected[i] expected[j] :=
    { different := Bool.eq_false_iff.mpr (List.isChain_iff_getElem.mp apart i hk)
      not_before := ExpectedBeat.time_le_of_places_le
        (List.pairwise_iff_getElem.mp ordered i (i + 1) hi hk (by omega))
      not_after := ExpectedBeat.time_le_of_places_le
        (List.pairwise_iff_getElem.mp ordered (i + 1) j hk hj (by omega)) }
  exact ⟨by omega, expected[i + 1], List.getElem?_eq_getElem hk, separates,
    separates.same_time hsame⟩

/-- One voice plays a single beat at 4 and another right after it. Between the two, a run of the
other voice begins. -/
def crossingVoices : List (Cue Float) :=
  [⟨0, .set, .nurse⟩, ⟨.ofBits 0x3F50000000000000, .set, .ian⟩, ⟨2, .pulse 1, .nurse⟩,
    ⟨.ofBits 0x4000020000000000, .go, .ian⟩, ⟨.ofBits 0x4000040000000000, .pulse 1, .nurse⟩,
    ⟨6, .stop, .ian⟩]

theorem exists_same_crossingVoices :
    ∃ a b, (play {} crossingVoices).expected[0]? = some a ∧
      (play {} crossingVoices).expected[2]? = some b ∧ a.same b = true := by
  have repeats : ((play {} crossingVoices).expected[0]?.bind fun a =>
      (play {} crossingVoices).expected[2]?.map a.same) = some true := by
    unfold play Playback.ofEmission
    rw [sortBy_eq_sorted]
    decide +kernel
  obtain ⟨a, ha, hb⟩ := Option.bind_eq_some_iff.mp repeats
  obtain ⟨b, hb, hsame⟩ := Option.map_eq_some_iff.mp hb
  exact ⟨a, b, ha, hb, hsame⟩

/-- The single beats of the one voice are the same, and the first beat of the run separates them. -/
theorem play_keepsApart_two_voices :
    let expected := (play {} crossingVoices).expected
    (∀ cue ∈ crossingVoices, cue.IsFinite) ∧
      ∃ a b c, expected[0]? = some a ∧ expected[2]? = some b ∧
        a.same b = true ∧ expected[1]? = some c ∧ c.Separates a b ∧
        almostEqual a.time c.time = true ∧ almostEqual c.time b.time = true := by
  intro expected
  have finite : ∀ cue ∈ crossingVoices, cue.IsFinite := by
    have small : ∀ cue ∈ crossingVoices, isFinite cue.time = true ∧ cue.kind.count ≤ 1 := by
      decide +kernel
    intro cue hc
    obtain ⟨time, count⟩ := small cue hc
    have count : (cue.kind.count : ℚ) ≤ 1 := by exact_mod_cast count
    have := two_pow_le_greatest (k := 0) (by decide)
    exact ⟨time, by linarith⟩
  have small : ∀ beat ∈ expected, isFinite beat.time = true ∧ Run.size beat.time ≤ 16 := by
    unfold expected play Playback.ofEmission
    rw [sortBy_eq_sorted]
    decide +kernel
  have within {i : ℕ} {beat : ExpectedBeat Float} (h : expected[i]? = some beat) :
      IsWithin (2 ^ 1000) beat.time := by
    obtain ⟨finite, le⟩ := small beat (List.mem_of_getElem? h)
    obtain ⟨q, hq⟩ := exists_exact_eq finite
    rw [Run.size_of_exact hq] at le
    refine ⟨q, hq, le.trans ?_⟩
    calc (16 : ℚ) = 2 ^ 4 := by norm_num
      _ ≤ 2 ^ 1000 := pow_le_pow_right₀ one_le_two (by decide)
  obtain ⟨a, b, ha, hb, hsame⟩ := exists_same_crossingVoices
  obtain ⟨-, c, hc, separates, same_time⟩ :=
    play_keepsApart {} crossingVoices finite 0 2 a b (by decide) ha hb hsame
  obtain ⟨hac, hcb, -⟩ := same_time (within ha) (within hb)
  exact ⟨finite, a, b, c, ha, hb, hsame, hc, separates, hac, hcb⟩

/-- All times are finite, and the first and the third beat that are expected are the same. -/
theorem play_repeats_beat :
    (∀ cue ∈ crossingVoices, isFinite cue.time = true) ∧
      ∃ a b, (play {} crossingVoices).expected[0]? = some a ∧
        (play {} crossingVoices).expected[2]? = some b ∧ a.same b = true :=
  ⟨by decide +kernel, exists_same_crossingVoices⟩

end CueCheck
