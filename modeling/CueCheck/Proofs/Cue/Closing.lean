import CueCheck.Cue.Pattern

/-!
# What closing markers gives

A pattern that closes markers, read back: which markers there were, and what it is made of.

- **A lone set** (`Pattern.ofLoneSet_eq_some_iff`): the distance to the close, on either side of it.
- **Markers from a get on** (`Pattern.LaidOut`, `Pattern.laidOut_of_ofMarkers`): none of the sets is
  at the get, and the sets of one period make a repetition; without sets there are no beats.
- **Any markers** (`Pattern.close_cases`): one of these, or the pattern confirmed before.
-/

namespace CueCheck

open Scalar (less ofInt)

variable {α : Type} [Scalar α]

theorem period_pos {offsets : List α} {length : α} (h : offsets ≠ []) :
    0 < period offsets length :=
  Nat.pos_of_dvd_of_pos (period_dvd offsets length) (List.length_pos_iff.mpr h)

theorem period_le {offsets : List α} {length : α} (h : offsets ≠ []) :
    period offsets length ≤ offsets.length :=
  Nat.le_of_dvd (List.length_pos_iff.mpr h) (period_dvd offsets length)

namespace Pattern

variable {pending : List (Marker α)} {start stop time : α} {previous pattern : Pattern α}

theorem isPlayable_iff : pattern.isPlayable = true ↔
    less Scalar.zero pattern.interval = true ∧ pattern.offsets ≠ [] := by
  unfold isPlayable
  rw [Bool.and_eq_true, Bool.not_eq_true', List.isEmpty_eq_false_iff]

theorem mem_offsetsOf {kind : MarkerKind} {offset : α} :
    offset ∈ offsetsOf kind start pending ↔
      ∃ m ∈ pending, m.kind = kind ∧ m.time - start = offset := by
  simp only [offsetsOf, List.mem_map, List.mem_filter, beq_iff_eq, and_assoc]

theorem length_offsetsOf_le (kind : MarkerKind) (start : α) (pending : List (Marker α)) :
    (offsetsOf kind start pending).length ≤ pending.length := by
  unfold offsetsOf
  rw [List.length_map]
  exact List.length_filter_le _ _

theorem ofLoneSet_eq_some_iff :
    ofLoneSet start stop = some pattern ↔ endsAtStart start stop = false ∧
      pattern = { interval := ofInt 2 * (stop - start), offsets := [stop - start],
                  squareshot := true } := by
  unfold ofLoneSet
  cases endsAtStart start stop with
  | true => simp
  | false => simp [eq_comm]

/-- The pattern is that of markers from a get at `start` on, closed at `stop`. -/
structure LaidOut (start stop : α) (pending : List (Marker α)) (pattern : Pattern α) : Prop where
  endsLater : endsAtStart start stop = false
  setsLater : ∀ m ∈ pending, m.kind = .set → almostEqual m.time start = false
  shape :
    let gets := offsetsOf .get start pending
    let sets := offsetsOf .set start pending
    let size := period sets (stop - start)
    let interval := repetitionLength (stop - start) size sets.length
    let onRepetitions := gets.zipIdx.all fun (offset, i) => almostEqual offset (ofInt i * interval)
    sets = [] ∧ pattern = { interval := stop - start, offsets := [] } ∨
      sets ≠ [] ∧ pattern =
        { interval, offsets := sets.take size
          squareshot := gets.length == sets.length && onRepetitions }

theorem laidOut_of_ofMarkers (h : ofMarkers start stop pending = some pattern) :
    LaidOut start stop pending pattern := by
  unfold ofMarkers at h
  split at h
  · cases h
  rename_i ends
  split at h
  · cases h
  rename_i sets
  refine ⟨Bool.eq_false_iff.mpr ends, fun m hm hk => ?_, ?_⟩
  · rw [← Bool.not_eq_true]
    intro he
    exact sets (List.any_eq_true.mpr ⟨m, hm, by rw [hk, he]; rfl⟩)
  · simp only at h
    split at h
    · rename_i hnone
      exact .inl ⟨List.isEmpty_iff.mp hnone, (Option.some.inj h).symm⟩
    · rename_i hsome
      obtain rfl := Option.some.inj h
      exact .inr ⟨fun h0 => hsome (List.isEmpty_iff.mpr h0), rfl⟩

/-- What a pattern comes from that closes markers. -/
theorem close_cases (h : close pending time previous = some pattern) :
    (pending = [] ∧ less Scalar.zero previous.interval = true ∧ pattern = previous) ∨
      (∃ start, pending = [⟨.set, start⟩] ∧ ofLoneSet start time = some pattern) ∨
        ∃ start rest, pending = ⟨.get, start⟩ :: rest ∧ LaidOut start time pending pattern := by
  unfold close at h
  split at h
  · split at h
    · rename_i hless
      exact .inl ⟨rfl, hless, (Option.some.inj h).symm⟩
    · cases h
  · exact .inr (.inl ⟨_, rfl, h⟩)
  · cases h
  · exact .inr (.inr ⟨_, _, rfl, laidOut_of_ofMarkers h⟩)

end Pattern

end CueCheck
