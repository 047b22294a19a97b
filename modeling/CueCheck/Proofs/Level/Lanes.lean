import CueCheck.Proofs.Level.Numbers
import CueCheck.Proofs.Level.Placement
import Mathlib

/-!
# Free-time beats of separate rows

Beats wait in one list, but a pulse moves only those of its row. So each row is a lane of its own,
and events of different lanes can be placed in any order.

- **Names** (`Name.same_eq_reading`): names that are not NaN are the same if they read the same.
- **Pulses** (`pulseAll_filter`, `pulseAll_waiting`): a pulse sees the beats of its row only, and
  leaves all others as they are.
- **Events** (`place_inLane`, `inLane_place`, `place_of_lane_eq_none`): an event depends on the
  beats of its lane and changes no other lane. An event without a lane depends on none.
- **Runs** (`Placed.inLane`, `Placed.exists_of_lanes`): a run goes through in each lane, and lanes
  that go through make up a run.
- **The result** (`Placed.perm`): reordered events add the same if the events of each lane keep
  their order.
-/

namespace CueCheck

/-! ## Names -/

/-- What a name is as a value. -/
inductive Reading where
  | null
  | number (value : Extended)
  | text (t : Text)
deriving DecidableEq

namespace Name

/-- What a name reads. -/
def reading {α : Type} [Scalar α] : Name α → Reading
  | null => .null
  | number n => .number n.exact
  | text t => .text t

/-- Not the number that is the same as nothing. -/
def NotNaN {α : Type} [Scalar α] : Name α → Prop
  | number n => n.IsNumber
  | _ => True

theorem same_eq_reading {a b : Name Float} (ha : a.NotNaN) (hb : b.NotNaN) :
    a.same b = decide (a.reading = b.reading) := by
  cases a <;> cases b
  case number.number m n =>
    rw [same, Number.same_eq_exact ha hb]
    simp [reading]
  case text.text s t =>
    rw [same, beq_eq_decide]
    simp [reading]
  all_goals simp [same, reading]

end Name

theorem notNaN_rowName {event : Event Float} {row : Name Float}
    (numbers : (Value.object event).AllNumbers Number.IsNumber) (named : rowName event = .ok row) :
    row.NotNaN := by
  have value := Value.allNumbers_get numbers "row"
  unfold rowName at named
  cases hv : Value.get event "row" with
  | number n =>
    rw [hv] at value named
    cases named
    exact Value.allNumbers_number.mp value
  | bool b =>
    rw [hv] at named
    cases named
    exact fun h => by cases h
  | null => rw [hv] at named; cases named; trivial
  | text t => rw [hv] at named; cases named; trivial
  | array entries => rw [hv] at named; cases named
  | object members => rw [hv] at named; cases named

/-! ## Pulses -/

section Pulse

variable {α : Type} [Scalar α] {timeline : Timeline α} {row : Name α} {event : Event α}
  {waiting still : Waiting α} {part : Part α} {beat later : FreeTime α}

/-- What waits on after a pulse on a row. -/
def FreeTime.after (row : Name α) (event : Event α) (beat : FreeTime α) : Option (FreeTime α) :=
  if beat.row.same row then
    match beat.pulse event with
    | .ok (.waits later) => some later
    | _ => none
  else some beat

theorem row_of_pulse (h : beat.pulse event = .ok (.waits later)) : later.row = beat.row := by
  cases pulse_eq_ok_iff.mp h with
  | early => rfl
  | moves => rfl

theorem row_of_after (h : beat.after row event = some later) : later.row = beat.row := by
  unfold FreeTime.after at h
  split at h
  · split at h
    · rename_i hp
      cases h
      exact row_of_pulse hp
    · cases h
  · cases h
    rfl

theorem pulseAll_waiting (h : FreeTime.pulseAll timeline row event waiting = .ok (still, part)) :
    still = waiting.filterMap (FreeTime.after row event) := by
  rw [pulseAll_eq_ok_iff] at h
  induction h with
  | nil => rfl
  | elsewhere apart _ ih => simp [FreeTime.after, apart, ← ih]
  | waits there pulsed _ ih => simp [FreeTime.after, there, pulsed, ← ih]
  | removed there pulsed _ ih => simp [FreeTime.after, there, pulsed, ← ih]
  | lands there pulsed _ ih => simp [FreeTime.after, there, pulsed, ← ih]

/-- A pulse sees no beats but those of its row. -/
theorem pulseAll_filter {p : Name α → Bool}
    (h : ∀ beat ∈ waiting, beat.row.same row = true → p beat.row = true) :
    FreeTime.pulseAll timeline row event (waiting.filter fun beat => p beat.row) =
      (FreeTime.pulseAll timeline row event waiting).map fun result =>
        (result.1.filter fun beat => p beat.row, result.2) := by
  induction waiting with
  | nil => rfl
  | cons beat others ih =>
    obtain ⟨first, rest⟩ := List.forall_mem_cons.mp h
    have ih := ih rest
    cases there : beat.row.same row with
    | false =>
      rw [pulseAll_cons_elsewhere there, List.filter_cons]
      by_cases hp : p beat.row = true
      · rw [if_pos hp, pulseAll_cons_elsewhere there, ih]
        cases FreeTime.pulseAll timeline row event others <;> simp [Except.map, hp]
      · rw [if_neg hp, ih]
        cases FreeTime.pulseAll timeline row event others <;> simp [Except.map, hp]
    | true =>
      rw [List.filter_cons_of_pos (p := fun beat : FreeTime α => p beat.row) (first there),
        pulseAll_cons_there there, pulseAll_cons_there there, ih]
      cases hp : beat.pulse event with
      | error e => rfl
      | ok outcome =>
        cases FreeTime.pulseAll timeline row event others with
        | error e => rfl
        | ok result =>
          cases outcome with
          | waits later =>
            have kept : p later.row = true := by rw [row_of_pulse hp]; exact first there
            simp [Except.bind, Except.map, PulseOutcome.onto, kept]
          | removed => rfl
          | lands position => rfl

/-- A pulse leaves the beats of other rows as they are. -/
theorem filter_pulseAll {p : Name α → Bool}
    (h : FreeTime.pulseAll timeline row event waiting = .ok (still, part))
    (apart : ∀ beat ∈ waiting, p beat.row = true → beat.row.same row = false) :
    (still.filter fun beat => p beat.row) = waiting.filter fun beat => p beat.row := by
  rw [pulseAll_waiting h]
  clear h
  induction waiting with
  | nil => rfl
  | cons beat others ih =>
    obtain ⟨first, rest⟩ := List.forall_mem_cons.mp apart
    rw [List.filterMap_cons, List.filter_cons]
    cases ha : beat.after row event with
    | none =>
      have hp : ¬p beat.row = true := by
        intro hp
        rw [FreeTime.after, first hp] at ha
        cases ha
      rw [if_neg hp]
      exact ih rest
    | some later =>
      simp only [List.filter_cons, ih rest]
      by_cases hp : p beat.row = true
      · rw [FreeTime.after, first hp] at ha
        cases ha
        rfl
      · rw [if_neg hp, row_of_after ha, if_neg hp]

end Pulse

/-! ## Events -/

/-- The lane of a free-time beat or a pulse: what its row reads, if it has a name. -/
def Event.lane {α : Type} [Scalar α] (event : Event α) : Option Reading :=
  match event.kind, rowName event with
  | .freeTime, .ok row => some row.reading
  | .pulse, .ok row => some row.reading
  | _, _ => none

/-- The beats that wait in a lane. -/
def inLane {α : Type} [Scalar α] (k : Reading) (waiting : Waiting α) : Waiting α :=
  waiting.filter fun beat => beat.row.reading = k

section Event

variable {α : Type} [Scalar α] {timeline : Timeline α} {enabled : List (Name α)}
  {waiting next : Waiting α} {event : Event α} {row : Name α} {part : Part α} {k : Reading}

theorem lane_eq_some_iff :
    event.lane = some k ↔
      (event.kind = .freeTime ∨ event.kind = .pulse) ∧
        ∃ row, rowName event = .ok row ∧ row.reading = k := by
  unfold Event.lane
  cases event.kind <;> cases rowName event <;> simp

theorem row_of_add {added : Option (FreeTime α)}
    (h : FreeTime.add timeline row event = .ok (added, part)) :
    ∀ beat ∈ added.toList, beat.row = row := by
  obtain ⟨count, -, ⟨-, rfl, -⟩ | ⟨-, rfl, -⟩⟩ := add_cases h
  · exact nofun
  · intro beat mem
    rw [List.mem_singleton.mp mem]
    rfl

/-- Only free-time beats and pulses in enabled rows change which beats wait. -/
theorem place_cases (h : event.place timeline enabled waiting = .ok (next, part)) :
    next = waiting ∨
      (∃ row added, event.kind = .freeTime ∧ rowName event = .ok row ∧
        FreeTime.add timeline row event = .ok (added, part) ∧ next = waiting ++ added.toList) ∨
      ∃ row, event.kind = .pulse ∧ rowName event = .ok row ∧
        FreeTime.pulseAll timeline row event waiting = .ok (next, part) := by
  cases place_eq_ok_iff.mp h with
  | phrase => exact .inl rfl
  | finish => exact .inl rfl
  | elsewhere => exact .inl rfl
  | @inRow row _ _ _ named _ placed =>
    cases placeInRow_eq_ok_iff.mp placed with
    | oneshot => exact .inl rfl
    | classic => exact .inl rfl
    | freeTime kind adds => exact .inr (.inl ⟨row, _, kind, named, adds, rfl⟩)
    | pulse kind pulsed => exact .inr (.inr ⟨row, kind, named, pulsed⟩)
    | nothing => exact .inl rfl

/-- An event without a lane does the same whatever waits. -/
theorem place_of_lane_eq_none (h : event.lane = none) (waiting : Waiting α) :
    event.place timeline enabled waiting =
      (event.place timeline enabled []).map fun result => (waiting, result.2) := by
  cases stands : event.standsInRow with
  | false =>
    rcases standsInRow_eq_false_iff.mp stands with kind | kind
    · rw [place_phrase kind, place_phrase kind]
      cases Part.spoken timeline event <;> rfl
    · rw [place_finish kind, place_finish kind]
      rfl
  | true =>
    cases named : rowName event with
    | error e => rw [place_unnamed stands named, place_unnamed stands named]; rfl
    | ok row =>
      cases sounds : row.isIn enabled with
      | false =>
        rw [place_elsewhere stands named sounds, place_elsewhere stands named sounds]
        rfl
      | true =>
        rw [place_inRow stands named sounds, place_inRow stands named sounds]
        unfold Event.placeInRow
        unfold Event.lane at h
        rw [named] at h
        cases hk : event.kind <;> rw [hk] at h
        case freeTime => cases h
        case pulse => cases h
        case oneshot => cases Part.oneshot timeline event <;> rfl
        all_goals rfl

end Event

section Lane

variable {timeline : Timeline Float} {enabled : List (Name Float)} {waiting next : Waiting Float}
  {event : Event Float} {part : Part Float} {k : Reading}

/-- No waiting beat has NaN for its row. -/
def RowsNotNaN (waiting : Waiting Float) : Prop :=
  ∀ beat ∈ waiting, beat.row.NotNaN

theorem RowsNotNaN.place (sane : RowsNotNaN waiting)
    (numbers : (Value.object event).AllNumbers Number.IsNumber)
    (h : event.place timeline enabled waiting = .ok (next, part)) : RowsNotNaN next := by
  rcases place_cases h with rfl | ⟨row, added, -, named, ha, rfl⟩ | ⟨row, -, -, hp⟩
  · exact sane
  · intro beat mem
    rcases List.mem_append.mp mem with mem | mem
    · exact sane beat mem
    · rw [row_of_add ha beat mem]
      exact notNaN_rowName numbers named
  · intro beat mem
    rw [pulseAll_waiting hp] at mem
    obtain ⟨old, hold, after⟩ := List.mem_filterMap.mp mem
    rw [row_of_after after]
    exact sane old hold

/-- An event changes its own lane only. -/
theorem inLane_place (sane : RowsNotNaN waiting)
    (numbers : (Value.object event).AllNumbers Number.IsNumber)
    (h : event.place timeline enabled waiting = .ok (next, part)) (other : event.lane ≠ some k) :
    inLane k next = inLane k waiting := by
  rcases place_cases h with rfl | ⟨row, added, kind, named, ha, rfl⟩ | ⟨row, kind, named, hp⟩
  · rfl
  · have apart : row.reading ≠ k := fun hr =>
      other (lane_eq_some_iff.mpr ⟨.inl kind, row, named, hr⟩)
    have none : inLane k added.toList = [] := by
      refine List.filter_eq_nil_iff.mpr fun beat mem => ?_
      rw [row_of_add ha beat mem, decide_eq_true_iff]
      exact apart
    rw [inLane, List.filter_append, ← inLane, ← inLane, none, List.append_nil]
  · have apart : row.reading ≠ k := fun hr =>
      other (lane_eq_some_iff.mpr ⟨.inr kind, row, named, hr⟩)
    refine filter_pulseAll (p := fun row => row.reading = k) hp fun beat mem hk => ?_
    rw [Name.same_eq_reading (sane beat mem) (notNaN_rowName numbers named), of_decide_eq_true hk]
    exact decide_eq_false (Ne.symm apart)

/-- An event sees the beats of its lane only. -/
theorem place_inLane (sane : RowsNotNaN waiting)
    (numbers : (Value.object event).AllNumbers Number.IsNumber) (h : event.lane = some k) :
    event.place timeline enabled (inLane k waiting) =
      (event.place timeline enabled waiting).map fun result => (inLane k result.1, result.2) := by
  obtain ⟨kind, row, named, rfl⟩ := lane_eq_some_iff.mp h
  have stands : event.standsInRow = true :=
    kind.elim (standsInRow_of_kind · nofun nofun) (standsInRow_of_kind · nofun nofun)
  cases sounds : row.isIn enabled with
  | false =>
    rw [place_elsewhere stands named sounds, place_elsewhere stands named sounds]
    rfl
  | true =>
    rw [place_inRow stands named sounds, place_inRow stands named sounds]
    unfold Event.placeInRow
    rcases kind with kind | kind <;> rw [kind]
    · cases ha : FreeTime.add timeline row event with
      | error e => rfl
      | ok added =>
        have all : inLane row.reading added.1.toList = added.1.toList := by
          refine List.filter_eq_self.mpr fun beat mem => ?_
          exact decide_eq_true (by rw [row_of_add ha beat mem])
        simp only [Except.map]
        rw [inLane, inLane, List.filter_append, ← inLane, ← inLane, all]
    · refine pulseAll_filter (p := fun name => name.reading = row.reading) fun beat mem same => ?_
      rw [Name.same_eq_reading (sane beat mem) (notNaN_rowName numbers named)] at same
      exact same

end Lane

/-! ## Runs -/

section Run

variable {timeline : Timeline Float} {enabled : List (Name Float)} {waiting after : Waiting Float}
  {events others : List (Event Float)} {trace : List (Event Float × Part Float)}

theorem Placed.unique {after' : Waiting Float} {trace' : List (Event Float × Part Float)}
    (h : Placed timeline enabled waiting events trace after)
    (h' : Placed timeline enabled waiting events trace' after') : trace = trace' := by
  induction h generalizing trace' with
  | nil => cases h'; rfl
  | cons first _ ih =>
    cases h' with
    | cons first' rest =>
      cases first.symm.trans first'
      rw [ih rest]

/-- A run goes through in each lane by itself. -/
theorem Placed.inLane (h : Placed timeline enabled waiting events trace after)
    (sane : RowsNotNaN waiting)
    (numbers : ∀ event ∈ events, (Value.object event).AllNumbers Number.IsNumber) (k : Reading) :
    Placed timeline enabled (inLane k waiting) (events.filter (·.lane = some k))
      (trace.filter (·.1.lane = some k)) (CueCheck.inLane k after) := by
  induction h with
  | nil => exact .nil _
  | @cons waiting next after event part events trace first rest ih =>
    obtain ⟨number, numbers⟩ := List.forall_mem_cons.mp numbers
    have ih := ih (sane.place number first) numbers
    by_cases hk : event.lane = some k
    · simp only [List.filter_cons, hk, decide_true, if_true]
      refine .cons ?_ ih
      rw [place_inLane sane number hk, first]
      rfl
    · simp only [List.filter_cons, hk, decide_false, Bool.false_eq_true, if_false]
      rw [← inLane_place sane number first hk]
      exact ih

/-- Lanes that go through make up a run, if the events without a lane go through as well. -/
theorem Placed.exists_of_lanes (sane : RowsNotNaN waiting)
    (numbers : ∀ event ∈ events, (Value.object event).AllNumbers Number.IsNumber)
    (loose : ∀ event ∈ events, event.lane = none →
      ∃ result, event.place timeline enabled [] = .ok result)
    (lanes : ∀ k, ∃ trace after,
      Placed timeline enabled (CueCheck.inLane k waiting) (events.filter (·.lane = some k)) trace
        after) :
    ∃ trace after, Placed timeline enabled waiting events trace after := by
  induction events generalizing waiting with
  | nil => exact ⟨[], waiting, .nil _⟩
  | cons event events ih =>
    obtain ⟨number, numbers⟩ := List.forall_mem_cons.mp numbers
    obtain ⟨alone, loose⟩ := List.forall_mem_cons.mp loose
    -- Whatever its lane is, the event goes through, and leaves lanes that go through.
    obtain ⟨⟨next, part⟩, first, lanes⟩ : ∃ result : Waiting Float × Part Float,
        event.place timeline enabled waiting = .ok result ∧
        ∀ k, ∃ trace after, Placed timeline enabled (CueCheck.inLane k result.1)
          (events.filter (·.lane = some k)) trace after := by
      cases hl : event.lane with
      | none =>
        obtain ⟨result, placed⟩ := alone hl
        refine ⟨(waiting, result.2), by rw [place_of_lane_eq_none hl, placed]; rfl, fun k => ?_⟩
        have lane := lanes k
        rwa [List.filter_cons_of_neg (by simp [hl])] at lane
      | some own =>
        obtain ⟨trace, after, lane⟩ := lanes own
        rw [List.filter_cons_of_pos (by simp [hl])] at lane
        cases lane with
        | cons first rest =>
          rw [place_inLane sane number hl, map_eq_ok_iff] at first
          obtain ⟨result, placed, ⟨⟩⟩ := first
          refine ⟨result, placed, fun k => ?_⟩
          by_cases hk : own = k
          · subst hk
            exact ⟨_, _, rest⟩
          · have other : event.lane ≠ some k := by rw [hl]; simpa using hk
            have lane := lanes k
            rw [List.filter_cons_of_neg (by simpa using other)] at lane
            rw [inLane_place sane number placed other]
            exact lane
    obtain ⟨trace, after, rest⟩ := ih (sane.place number first) numbers loose lanes
    exact ⟨(event, part) :: trace, after, .cons first rest⟩

/-- What an event adds where nothing waits. -/
def Event.partAlone (timeline : Timeline Float) (enabled : List (Name Float))
    (event : Event Float) : Part Float :=
  match event.place timeline enabled [] with
  | .ok result => result.2
  | .error _ => .none

/-- Events without a lane add what they add alone. -/
theorem Placed.filter_lane_eq_none (h : Placed timeline enabled waiting events trace after) :
    trace.filter (·.1.lane = none) =
      (events.filter (·.lane = none)).map fun event =>
        (event, event.partAlone timeline enabled) := by
  induction h with
  | nil => rfl
  | @cons waiting next after event part events trace first rest ih =>
    by_cases hl : event.lane = none
    · have alone : event.partAlone timeline enabled = part := by
        rw [place_of_lane_eq_none hl] at first
        obtain ⟨result, placed, ⟨⟩⟩ := map_eq_ok_iff.mp first
        rw [Event.partAlone, placed]
      simp only [List.filter_cons, hl, decide_true, if_true, List.map_cons, alone, ih]
    · simp only [List.filter_cons, hl, decide_false, Bool.false_eq_true, if_false, ih]

/-- Events that are reordered, but not within a lane, add the same, in some order. -/
theorem Placed.perm (h : Placed timeline enabled [] events trace after) (hp : events.Perm others)
    (numbers : ∀ event ∈ events, (Value.object event).AllNumbers Number.IsNumber)
    (same : ∀ k, events.filter (·.lane = some k) = others.filter (·.lane = some k)) :
    ∃ trace' after', Placed timeline enabled [] others trace' after' ∧ trace.Perm trace' := by
  have sane : RowsNotNaN [] := fun _ mem => nomatch mem
  have numbers' : ∀ event ∈ others, (Value.object event).AllNumbers Number.IsNumber :=
    fun event mem => numbers event (hp.mem_iff.mpr mem)
  have lanes (k : Reading) := h.inLane sane numbers k
  have loose (event : Event Float) (mem : event ∈ others) (hl : event.lane = none) :
      ∃ result, event.place timeline enabled [] = .ok result := by
    obtain ⟨state, result, placed⟩ := h.exists_place (hp.mem_iff.mpr mem)
    rw [place_of_lane_eq_none hl] at placed
    obtain ⟨alone, first, -⟩ := map_eq_ok_iff.mp placed
    exact ⟨alone, first⟩
  obtain ⟨trace', after', h'⟩ := Placed.exists_of_lanes sane numbers' loose fun k =>
    ⟨_, _, same k ▸ lanes k⟩
  refine ⟨trace', after', h', perm_of_filter_perm (·.1.lane) fun lane => ?_⟩
  simp only [beq_eq_decide]
  cases lane with
  | none =>
    rw [h.filter_lane_eq_none, h'.filter_lane_eq_none]
    exact (hp.filter _).map _
  | some k =>
    have lane := h'.inLane sane numbers' k
    rw [← same k] at lane
    rw [(lanes k).unique lane]

end Run

end CueCheck
