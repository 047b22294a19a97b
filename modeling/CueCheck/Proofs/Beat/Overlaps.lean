import CueCheck.Proofs.Beat.Accounting

/-!
# Beats at one time that disagree are all reported

Over exact rationals, two accepted beats at the same time that land differently far from it are
both reported, each at its own time, and nothing else is.

- **The pair** (`Disagree`): two accepted beats at the same time with different shifts.
- **The kind** (`overlapKind_eq_burn_iff`): the first beat's shot decides, then the second's.
- **The search** (`mem_overlaps`): the windows around the times of the accepted beats leave no such
  pair out.
- `checkBeats_disagreements` is about the times reported.
-/

namespace CueCheck

/-! ## The kind -/

section Kind

variable {α : Type} {a b : Beat α}

/-- Two beats disagree as burnshots if the first one is a burnshot, or if it has no shot and the
second one is. -/
def CountsAsBurn (a b : Beat α) : Prop :=
  a.isShot .burn = true ∨ a.shot? = none ∧ b.isShot .burn = true

theorem overlapKind_eq_burn_iff : overlapKind a b = .burn ↔ CountsAsBurn a b := by
  unfold overlapKind CountsAsBurn Beat.isShot
  cases ha : a.shot? with
  | some shot => simp
  | none => cases hb : b.shot? <;> simp

theorem overlapKind_eq_freeze_iff : overlapKind a b = .freeze ↔ ¬CountsAsBurn a b := by
  rw [← overlapKind_eq_burn_iff]
  cases overlapKind a b <;> simp

end Kind

/-! ## The search -/

variable {beats : List (Beat Rat)} {expected : List (ExpectedBeat Rat)} {a b : Beat Rat}

/-- Two accepted beats at the same time that land differently far from it. -/
structure Disagree (beats : List (Beat Rat)) (expected : List (ExpectedBeat Rat))
    (a b : Beat Rat) : Prop where
  mem_left : a ∈ beats
  mem_right : b ∈ beats
  accepted_left : a.IsAccepted expected
  accepted_right : b.IsAccepted expected
  same_time : almostEqual a.time b.time = true
  apart : almostEqual a.shift b.shift = false

/-- The windows around the times of beats sorted by time leave no pair out. -/
theorem mem_overlaps {accepted : List (Beat Rat)}
    (ordered : (accepted.map (·.time)).Pairwise (· ≤ ·)) {kind : ShotKind} {t : Rat} :
    t ∈ overlaps accepted kind ↔ ∃ a ∈ accepted, ∃ b ∈ accepted, a.time = t ∧
      almostEqual b.time a.time = true ∧ almostEqual b.shift a.shift = false ∧
      overlapKind a b = kind := by
  unfold overlaps
  simp only [List.mem_flatMap, List.mem_filterMap, mem_matching ordered, List.getElem?_map,
    Option.map_eq_some_iff]
  constructor
  · rintro ⟨a, ha, b, ⟨i, ⟨_, ⟨_, hi, rfl⟩, near⟩, hb⟩, found⟩
    obtain rfl : _ = b := Option.some.inj (hi.symm.trans hb)
    split at found
    · cases found
    · rename_i apart
      split at found
      · rename_i kinds
        exact ⟨a, ha, _, List.mem_of_getElem? hb, Option.some.inj found, near,
          Bool.not_eq_true _ ▸ apart, kinds⟩
      · cases found
  · rintro ⟨a, ha, b, hb, rfl, near, apart, kinds⟩
    obtain ⟨i, hi⟩ := List.mem_iff_getElem?.mp hb
    refine ⟨a, ha, b, ⟨i, ⟨_, ⟨b, hi, rfl⟩, near⟩, hi⟩, ?_⟩
    simp [apart, kinds]

theorem mem_overlaps_accepted {kind : ShotKind} {t : Rat} :
    t ∈ overlaps (Judged.accepted (Judged.ofBeats beats expected)) kind ↔
      ∃ a b, Disagree beats expected a b ∧ overlapKind a b = kind ∧ a.time = t := by
  rw [mem_overlaps (pairwise_accepted _)]
  simp only [mem_accepted]
  constructor
  · rintro ⟨a, ⟨ha, hacc⟩, b, ⟨hb, hbcc⟩, rfl, near, apart, kinds⟩
    rw [almostEqual_comm] at near apart
    exact ⟨a, b, ⟨ha, hb, hacc, hbcc, near, apart⟩, kinds, rfl⟩
  · rintro ⟨a, b, h, kinds, rfl⟩
    have near := h.same_time
    have apart := h.apart
    rw [almostEqual_comm] at near apart
    exact ⟨a, ⟨h.mem_left, h.accepted_left⟩, b, ⟨h.mem_right, h.accepted_right⟩, rfl, near,
      apart, kinds⟩

/-! ## The times reported -/

/-- Of two accepted beats at the same time that land differently far from it, the first one is
reported, under the kind of the pair; and only the times of such beats are reported. -/
theorem checkBeats_disagreements (beats : List (Beat Rat)) (expected : List (ExpectedBeat Rat)) :
    let found := (checkBeats beats expected).times
    (∀ a b, Disagree beats expected a b →
      (CountsAsBurn a b → ∃ t ∈ found .overlappingBurnshot, almostEqual t a.time = true) ∧
      (¬CountsAsBurn a b → ∃ t ∈ found .overlappingFreezeshot, almostEqual t a.time = true)) ∧
    (∀ t ∈ found .overlappingBurnshot,
      ∃ a b, Disagree beats expected a b ∧ CountsAsBurn a b ∧ a.time = t) ∧
    ∀ t ∈ found .overlappingFreezeshot,
      ∃ a b, Disagree beats expected a b ∧ ¬CountsAsBurn a b ∧ a.time = t := by
  intro found
  refine ⟨fun a b h => ⟨fun burn => ?_, fun freeze => ?_⟩, fun t ht => ?_, fun t ht => ?_⟩
  · exact exists_mem_sortedTimes
      (mem_overlaps_accepted.mpr ⟨a, b, h, overlapKind_eq_burn_iff.mpr burn, rfl⟩)
  · exact exists_mem_sortedTimes
      (mem_overlaps_accepted.mpr ⟨a, b, h, overlapKind_eq_freeze_iff.mpr freeze, rfl⟩)
  · obtain ⟨a, b, h, kind, time⟩ := mem_overlaps_accepted.mp (mem_of_mem_sortedTimes ht)
    exact ⟨a, b, h, overlapKind_eq_burn_iff.mp kind, time⟩
  · obtain ⟨a, b, h, kind, time⟩ := mem_overlaps_accepted.mp (mem_of_mem_sortedTimes ht)
    exact ⟨a, b, h, overlapKind_eq_freeze_iff.mp kind, time⟩

end CueCheck
