import CueCheck.Check
import CueCheck.Proofs.Beat.Accounting
import CueCheck.Proofs.Binary64.Lookup
import CueCheck.Proofs.Cue.Order

/-!
# The order in which a level places things does not show

Over binary64 numbers, a check finds the same whatever the order of its beats, holds and hits.

- **Beats** (`checkBeats_perm`): accepted beats at one time keep the order in which they were
  placed. But a lookup finds all of them or none, and every ordered pair of them is compared, so
  the same times are found in some order (`overlaps_perm`).
- **Holds** (`checkHolds_perm`): holds with the same hit and the same release as numbers can change
  places, and no comparison tells them apart.
- **The result** (`check_perm`): the findings of every kind are the same numbers.
-/

namespace CueCheck

open Scalar (exact isFinite less)
open Binary64 (rank ranksFinite_rank exact_ne_nan isFound filterMap_matching isIn_eq_any
  ascending_ascending ascending_map_sortBy)

/-- The time and the landing of a beat are finite. -/
structure Beat.IsFinite {α : Type} [Scalar α] (beat : Beat α) : Prop where
  time : isFinite beat.time = true
  landing : isFinite beat.landing = true

/-- The hit and the release of a hold are finite. -/
structure Hold.IsFinite {α : Type} [Scalar α] (hold : Hold α) : Prop where
  hit : isFinite hold.hit = true
  release : isFinite hold.release = true

instance {α : Type} [Scalar α] (beat : Beat α) : Decidable beat.IsFinite :=
  decidable_of_iff (isFinite beat.time = true ∧ isFinite beat.landing = true)
    ⟨fun ⟨ht, hl⟩ => ⟨ht, hl⟩, fun ⟨ht, hl⟩ => ⟨ht, hl⟩⟩

instance {α : Type} [Scalar α] (hold : Hold α) : Decidable hold.IsFinite :=
  decidable_of_iff (isFinite hold.hit = true ∧ isFinite hold.release = true)
    ⟨fun ⟨hh, hr⟩ => ⟨hh, hr⟩, fun ⟨hh, hr⟩ => ⟨hh, hr⟩⟩

/-! ## Sorted lists of numbers -/

theorem ascending_perm {xs ys : List Float} (hp : xs.Perm ys) :
    (ascending xs).Perm (ascending ys) :=
  (sortBy_perm _ _).trans (hp.trans (sortBy_perm _ _).symm)

/-- Whether a time is in a sorted list does not depend on the order that the list had. -/
theorem isIn_perm {xs ys : List Float} (hp : xs.Perm ys) (hx : Binary64.Ascending xs)
    (hy : Binary64.Ascending ys) : isIn xs = isIn ys := by
  funext t
  rw [isIn_eq_any hx, isIn_eq_any hy, hp.any_eq]

/-! ## Beats -/

section Beats

variable {beats more : List (Beat Float)} {expected : List (ExpectedBeat Float)}

theorem accepted_perm {judged others : List (Judged Float)} (hp : judged.Perm others) :
    (Judged.accepted judged).Perm (Judged.accepted others) :=
  (sortBy_perm _ _).trans ((hp.filterMap _).trans (sortBy_perm _ _).symm)

theorem skips_perm {judged others : List (Judged Float)} (hp : judged.Perm others) :
    (Judged.skips judged).Perm (Judged.skips others) :=
  ascending_perm (hp.filterMap _)

theorem timesOf_perm {judged others : List (Judged Float)} (hp : judged.Perm others)
    (test : Verdict Float → Bool) :
    (Judged.timesOf test judged).Perm (Judged.timesOf test others) :=
  (hp.filter _).map _

theorem ascending_hits (finite : ∀ b ∈ beats, b.IsFinite) :
    Binary64.Ascending ((Judged.accepted (Judged.ofBeats beats expected)).map (·.time)) := by
  refine ascending_map_sortBy fun a ha => ?_
  have hm : a ∈ Judged.accepted (Judged.ofBeats beats expected) := mem_sortBy.mpr ha
  exact exact_ne_nan (finite a (mem_accepted_iff.mp hm).1).time

theorem ascending_landings (finite : ∀ b ∈ beats, b.IsFinite) :
    Binary64.Ascending
      (ascending ((Judged.accepted (Judged.ofBeats beats expected)).map (·.landing))) := by
  refine ascending_ascending fun t ht => ?_
  obtain ⟨a, ha, rfl⟩ := List.mem_map.mp ht
  exact exact_ne_nan (finite a (mem_accepted_iff.mp ha).1).landing

/-- An instant that is skipped is equal to itself up to tolerance, for the instants to skip have
been compared with the first of them, itself included. -/
theorem almostEqual_self_of_cued {beat : Beat Float} {s : Float}
    (h : beat.verdict expected = .cued (some s)) : almostEqual s s = true := by
  unfold Beat.verdict at h
  simp only at h
  split at h
  · cases h
  · split at h
    · cases h
    · split at h
      · unfold Beat.skipVerdict at h
        split at h
        · cases h
        · split at h
          · rename_i hall
            cases h
            exact List.all_eq_true.mp hall s List.mem_cons_self
          · cases h
      · cases h

theorem ascending_skips :
    Binary64.Ascending (Judged.skips (Judged.ofBeats beats expected)) := by
  refine ascending_ascending fun s hs => ?_
  have hm : s ∈ Judged.skips (Judged.ofBeats beats expected) := mem_ascending.mpr hs
  obtain ⟨a, -, hv⟩ := mem_skips.mp hm
  exact Binary64.exact_ne_nan_of_almostEqual (almostEqual_self_of_cued hv)

/-- The pairs that disagree are the same, in some order. -/
theorem overlaps_perm {accepted others : List (Beat Float)} (hp : accepted.Perm others)
    (h : Binary64.Ascending (accepted.map (·.time)))
    (h' : Binary64.Ascending (others.map (·.time))) (kind : ShotKind) :
    (overlaps accepted kind).Perm (overlaps others kind) := by
  unfold overlaps
  refine hp.flatMap fun beat _ => ?_
  simp only [filterMap_matching h, filterMap_matching h']
  exact (hp.filter _).filterMap _

theorem exists_of_mem_overlaps {accepted : List (Beat Float)} {kind : ShotKind} {t : Float}
    (h : t ∈ overlaps accepted kind) : ∃ a ∈ accepted, a.time = t := by
  unfold overlaps at h
  obtain ⟨a, ha, h⟩ := List.mem_flatMap.mp h
  obtain ⟨other, -, h⟩ := List.mem_filterMap.mp h
  refine ⟨a, ha, ?_⟩
  split at h
  · cases h
  · split at h
    · exact Option.some.inj h
    · cases h

/-- What is found about beats does not depend on their order. -/
theorem checkBeats_perm (hp : beats.Perm more) (finite : ∀ b ∈ beats, b.IsFinite)
    (kind : FindingKind) :
    ((checkBeats beats expected).times kind).map exact =
      ((checkBeats more expected).times kind).map exact := by
  have finite' : ∀ b ∈ more, b.IsFinite := fun b hb => finite b (hp.mem_iff.mpr hb)
  have judged : (Judged.ofBeats beats expected).Perm (Judged.ofBeats more expected) := hp.map _
  have accepted := accepted_perm judged
  have hits := isIn_perm (accepted.map Beat.time) (ascending_hits finite) (ascending_hits finite')
  have skips := isIn_perm (skips_perm judged) ascending_skips ascending_skips
  have landings := isIn_perm (ascending_perm (accepted.map Beat.landing))
    (ascending_landings finite) (ascending_landings finite')
  have verdicts (test : Verdict Float → Bool) :
      (sortedTimes (Judged.timesOf test (Judged.ofBeats beats expected))).map exact =
        (sortedTimes (Judged.timesOf test (Judged.ofBeats more expected))).map exact := by
    refine map_exact_sortedTimes_of_perm (timesOf_perm judged test) fun t ht => ?_
    obtain ⟨b, hb, -, rfl⟩ := mem_timesOf.mp ht
    exact (finite b hb).time
  have disagreements (shot : ShotKind) :
      (sortedTimes (overlaps (Judged.accepted (Judged.ofBeats beats expected)) shot)).map exact =
        (sortedTimes
          (overlaps (Judged.accepted (Judged.ofBeats more expected)) shot)).map exact := by
    refine map_exact_sortedTimes_of_perm
      (overlaps_perm accepted (ascending_hits finite) (ascending_hits finite') shot) fun t ht => ?_
    obtain ⟨a, ha, rfl⟩ := exists_of_mem_overlaps ht
    exact (finite a (mem_accepted_iff.mp ha).1).time
  cases kind with
  | unexpectedSkipshot => exact verdicts _
  | overlappingSkipshot => exact verdicts _
  | unexpectedFreezeshot => exact verdicts _
  | unexpectedBurnshot => exact verdicts _
  | overlappingFreezeshot => exact disagreements .freeze
  | overlappingBurnshot => exact disagreements .burn
  | uncuedHit =>
    unfold checkBeats
    simp only [landings]
    refine map_exact_sortedTimes_of_perm ((timesOf_perm judged _).filter _) fun t ht => ?_
    obtain ⟨b, hb, -, rfl⟩ := mem_timesOf.mp (List.mem_of_mem_filter ht)
    exact (finite b hb).time
  | skippedHit =>
    unfold checkBeats
    simp only [hits, skips]
  | missingHit =>
    unfold checkBeats
    simp only [hits, skips]
  | invalidCue => rfl
  | hitOnHoldRelease => rfl
  | overlappingHold => rfl

end Beats

/-! ## Holds -/

section Holds

variable {holds others : List (Hold Float)}

/-- The ranks of a hold, in the order in which they count. -/
def Hold.key (hold : Hold Float) : Binary64.Rank ×ₗ Binary64.Rank :=
  toLex (rank hold.hit, rank hold.release)

namespace Hold

variable {a b c d : Hold Float}

theorem key_eq_iff : a.key = b.key ↔ rank a.hit = rank b.hit ∧ rank a.release = rank b.release := by
  unfold key
  rw [toLex_inj, Prod.mk.injEq]

/-- Finite holds are sorted by their keys. -/
theorem precedes_eq (ha : a.IsFinite) (hb : b.IsFinite) :
    a.precedes b = decide (a.key < b.key) := by
  unfold precedes key
  rw [ranksFinite_rank.beq_eq ha.hit hb.hit, ranksFinite_rank.less_eq ha.hit hb.hit,
    ranksFinite_rank.less_eq ha.release hb.release, Bool.eq_iff_iff,
    decide_eq_true_iff (p := toLex _ < toLex _), Prod.Lex.toLex_lt_toLex]
  by_cases h : rank a.hit = rank b.hit
  · simp [h]
  · simp [h]

/-- Whether a finite hold runs into another depends on their keys only. -/
theorem runsInto_congr (ha : a.IsFinite) (hb : b.IsFinite) (hc : c.IsFinite) (hd : d.IsFinite)
    (hac : a.key = c.key) (hbd : b.key = d.key) : a.runsInto b = c.runsInto d := by
  obtain ⟨-, hrelease⟩ := key_eq_iff.mp hac
  obtain ⟨hhit, -⟩ := key_eq_iff.mp hbd
  unfold runsInto
  rw [ranksFinite_rank.less_eq hb.hit ha.release, ranksFinite_rank.less_eq hd.hit hc.release,
    hhit, hrelease,
    Binary64.almostEqual_congr (exact_ne_nan hb.hit) (exact_ne_nan ha.release) (exact_ne_nan hd.hit)
      (exact_ne_nan hc.release) hhit hrelease]

end Hold

theorem mem_of_mem_overlappingHits {α : Type} [Scalar α] {holds : List (Hold α)} {t : α}
    (h : t ∈ overlappingHits holds) : ∃ a ∈ holds, a.hit = t := by
  fun_induction overlappingHits holds with
  | case1 hold next rest hr ih =>
    rcases List.mem_cons.mp h with rfl | h
    · exact ⟨hold, List.mem_cons_self, rfl⟩
    · obtain ⟨a, ha, hat⟩ := ih h
      exact ⟨a, List.mem_cons_of_mem _ ha, hat⟩
  | case2 hold next rest hr ih =>
    obtain ⟨a, ha, hat⟩ := ih h
    exact ⟨a, List.mem_cons_of_mem _ ha, hat⟩
  | case3 => cases h

/-- Lists of holds with the same keys overlap at the same hits. -/
theorem map_rank_overlappingHits {xs ys : List (Hold Float)}
    (h : List.Forall₂ (fun a b => (a.IsFinite ∧ b.IsFinite) ∧ a.key = b.key) xs ys) :
    (overlappingHits xs).map rank = (overlappingHits ys).map rank := by
  induction h with
  | nil => rfl
  | cons hab h ih =>
    cases h with
    | nil => rfl
    | cons hcd h =>
      unfold overlappingHits
      rw [Hold.runsInto_congr hab.1.1 hcd.1.1 hab.1.2 hcd.1.2 hab.2 hcd.2]
      split
      · rw [List.map_cons, List.map_cons, ih, (Hold.key_eq_iff.mp hab.2).1]
      · exact ih

/-- What is found about holds depends neither on their order nor on that of the hits. -/
theorem checkHolds_perm {hits presses : List Float} (hp : holds.Perm others)
    (hh : hits.Perm presses) (finite : ∀ h ∈ holds, h.IsFinite)
    (finiteHits : ∀ t ∈ hits, isFinite t = true) (kind : FindingKind) :
    ((checkHolds hits holds).times kind).map exact =
      ((checkHolds presses others).times kind).map exact := by
  have finite' : ∀ h ∈ others, h.IsFinite := fun h hm => finite h (hp.mem_iff.mpr hm)
  have ordered : (sortBy Hold.precedes holds).Perm (sortBy Hold.precedes others) :=
    (sortBy_perm _ _).trans (hp.trans (sortBy_perm _ _).symm)
  have sorts : SortsByKey Hold.precedes Hold.key holds := by
    intro a ha b hb
    exact Hold.precedes_eq (finite a ha) (finite b hb)
  cases kind with
  | hitOnHoldRelease =>
    have found : isIn (ascending hits) = isIn (ascending presses) :=
      isIn_perm (ascending_perm hh)
        (ascending_ascending fun t ht => exact_ne_nan (finiteHits t ht))
        (ascending_ascending fun t ht => exact_ne_nan (finiteHits t (hh.mem_iff.mpr ht)))
    show (sortedTimes (((sortBy _ holds).map (·.release)).filter (isIn (ascending hits)))).map _ =
      (sortedTimes (((sortBy _ others).map (·.release)).filter (isIn (ascending presses)))).map _
    rw [found]
    refine map_exact_sortedTimes_of_perm ((ordered.map _).filter _) fun t ht => ?_
    obtain ⟨a, ha, rfl⟩ := List.mem_map.mp (List.mem_of_mem_filter ht)
    exact (finite a (mem_sortBy.mp ha)).release
  | overlappingHold =>
    have related := forall₂_sortBy (hp.map Hold.key) sorts (sorts.of_perm hp)
    have ranks := map_rank_overlappingHits
      (related.imp fun a b ⟨⟨ha, hb⟩, hab⟩ => ⟨⟨finite a ha, finite' b hb⟩, hab⟩)
    refine map_exact_sortedTimes (.of_eq ranks) ?_ ?_
    · intro t ht
      obtain ⟨a, ha, rfl⟩ := mem_of_mem_overlappingHits ht
      exact (finite a (mem_sortBy.mp ha)).hit
    · intro t ht
      obtain ⟨a, ha, rfl⟩ := mem_of_mem_overlappingHits ht
      exact (finite' a (mem_sortBy.mp ha)).hit
  | _ => rfl

end Holds

/-! ## The result -/

/-- The findings of a level are the same numbers in whatever order its beats, its holds and the
given hits come. -/
theorem check_perm (options : Options) (cues : List (Cue Float)) {beats more : List (Beat Float)}
    {holds others : List (Hold Float)} {hits presses : Option (List Float)}
    (hb : beats.Perm more) (hh : holds.Perm others) (hp : Option.Rel List.Perm hits presses)
    (finiteBeats : ∀ b ∈ beats, b.IsFinite) (finiteHolds : ∀ h ∈ holds, h.IsFinite)
    (finiteHits : ∀ given ∈ hits, ∀ t ∈ given, isFinite t = true) (kind : FindingKind) :
    ((check options cues beats holds hits).findings.times kind).map exact =
      ((check options cues more others presses).findings.times kind).map exact := by
  have pressed :
      (hits.getD (beats.map (·.landing))).Perm (presses.getD (more.map (·.landing))) := by
    cases hp with
    | some h => exact h
    | none => exact hb.map _
  have finite : ∀ t ∈ hits.getD (beats.map (·.landing)), isFinite t = true := by
    intro t ht
    cases hits with
    | some given => exact finiteHits given rfl t ht
    | none =>
      obtain ⟨b, hb, rfl⟩ := List.mem_map.mp ht
      exact (finiteBeats b hb).landing
  unfold check
  simp only [Findings.times_append, List.map_append]
  rw [checkBeats_perm hb finiteBeats, checkHolds_perm hh pressed finiteHolds finite]

/-- Two shots that disagree at 5, and two holds that tie but for the sign of a zero, told
backwards. -/
theorem check_perm_reverse :
    let cues : List (Cue Float) :=
      [⟨0, .get, .nurse⟩, ⟨1, .set, .nurse⟩, ⟨2, .go, .nurse⟩, ⟨7, .stop, .nurse⟩]
    let beats : List (Beat Float) :=
      [{ time := 3 }, { time := 5, shot? := some ⟨.freeze, 2.5, 0.5⟩ },
        { time := 5, shot? := some ⟨.burn, 1.5, 0.5⟩ }, { time := 6.5 }]
    let holds : List (Hold Float) := [⟨0, 5⟩, ⟨-0, 5⟩, ⟨4, 6⟩]
    let hits : List Float := [5, -0, 0, 4.5, 5.5]
    (∀ b ∈ beats, b.IsFinite) ∧ (∀ h ∈ holds, h.IsFinite) ∧ (∀ t ∈ hits, isFinite t = true) ∧
      ∀ kind, ((check {} cues beats holds (some hits)).findings.times kind).map exact =
        ((check {} cues beats.reverse holds.reverse (some hits.reverse)).findings.times kind).map
          exact := by
  intro cues beats holds hits
  have finiteBeats : ∀ b ∈ beats, b.IsFinite := by decide +kernel
  have finiteHolds : ∀ h ∈ holds, h.IsFinite := by decide +kernel
  have finiteHits : ∀ t ∈ hits, isFinite t = true := by decide +kernel
  refine ⟨finiteBeats, finiteHolds, finiteHits, ?_⟩
  exact check_perm {} cues beats.reverse_perm.symm holds.reverse_perm.symm
    (.some hits.reverse_perm.symm) finiteBeats finiteHolds fun given hg => by
      cases hg
      exact finiteHits

end CueCheck
