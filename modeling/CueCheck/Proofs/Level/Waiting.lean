import CueCheck.Proofs.Level.Lanes
import CueCheck.Proofs.Level.Presses
import Mathlib

/-!
# Free-time beats land at most once

The beats that wait are one list, which every pulse makes anew, and nothing in it says which event a
beat comes from. Here the beat of each event is followed by the place of that event: what each later
event makes of it, and what the event adds for it.

- **One event** (`FreeTime.meet`, `Event.start?`, `place_outcomes`): the list after an event, and
  what the event adds, beat by beat.
- **All events** (`beatAfter`, `entryAt`, `Placed.exists_states_eq`, `Placed.part_eq`): the list
  after some events has the beats of these events that still wait, and what a free-time event or a
  pulse adds are the entries at it.
- **A waiting beat** (`meet_cases`, `beatAfter_eq_some`): it is as its event added it but for its
  pulse, which is not the last one.
- **Once** (`entryAt_eq_none_of_lt`): a beat that lands or is removed has no later entry.
- **The level** (`ofMembers_landsOnce`): so it is in every level that decodes.
-/

namespace CueCheck

open Scalar

variable {α : Type} [Scalar α]

/-! ## One event -/

namespace PulseOutcome

/-- The beat, if it waits on. -/
def still? : PulseOutcome α → Option (FreeTime α)
  | waits beat => some beat
  | _ => none

/-- The press at an event, if the beat lands there. -/
def press? (event : Event α) : PulseOutcome α → Option (Press α)
  | lands position => some ⟨position, event.pressLength⟩
  | _ => none

end PulseOutcome

/-- What an event makes of a beat that waits. Only a pulse on its row can move it. -/
def FreeTime.meet (enabled : List (Name α)) (event : Event α) (beat : FreeTime α) :
    PulseOutcome α :=
  if event.pulses enabled beat.row then
    match beat.pulse event with
    | .ok outcome => outcome
    | .error _ => .waits beat
  else .waits beat

/-- How the beat of a free-time event starts: it lands at once on the last pulse, else it waits. -/
def Event.start? (timeline : Timeline α) (enabled : List (Name α)) (event : Event α) :
    Option (PulseOutcome α) :=
  match event.soundingRow? enabled, event.kind with
  | some row, .freeTime =>
    match (Value.getNumber event "pulse" (.whole 0)).truncate with
    | .error _ => none
    | .ok count =>
      if count = Part.hitPulse then some (.lands (timeline.beatOf event))
      else some (.waits (event.freeTimeBeat timeline row count))
  | _, _ => none

/-- The hits and holds of some presses. -/
def Part.ofPresses (timeline : Timeline α) (presses : List (Press α)) : Part α where
  hits := (presses.filter (·.isHit)).map (Press.time timeline)
  holds := (presses.filter (!·.isHit)).map (Press.hold timeline)

section Step

variable {timeline : Timeline α} {enabled : List (Name α)} {event : Event α} {row : Name α}
  {beat : FreeTime α} {waiting next : Waiting α} {part : Part α}

theorem ofPresses_append (timeline : Timeline α) (presses others : List (Press α)) :
    Part.ofPresses timeline (presses ++ others) =
      .ofPresses timeline presses ++ .ofPresses timeline others := by
  unfold Part.ofPresses
  simp only [List.filter_append, List.map_append]
  rfl

theorem press_eq_ofPresses (position : α) (length : Number α) :
    Part.press timeline position length = .ofPresses timeline [⟨position, length⟩] := by
  have isHit : Press.isHit (⟨position, length⟩ : Press α) = length.isZero := rfl
  unfold Part.press Part.ofPresses
  cases hit : length.isZero
  all_goals
    rw [hit] at isHit
    simp only [List.filter_cons, isHit]
    rfl

theorem meet_of_quiet (quiet : event.pulses enabled beat.row = false) :
    beat.meet enabled event = .waits beat := by
  unfold FreeTime.meet
  rw [quiet]
  rfl

theorem meet_of_pulses (pulses : event.pulses enabled beat.row = true) {outcome : PulseOutcome α}
    (does : beat.pulse event = .ok outcome) : beat.meet enabled event = outcome := by
  unfold FreeTime.meet
  rw [if_pos pulses, does]

/-- An event without a pulse leaves all that waits as it is. -/
theorem filterMap_still_of_quiet (quiet : ∀ row, event.pulses enabled row = false)
    (waiting : Waiting α) : waiting.filterMap (fun beat => (beat.meet enabled event).still?) =
      waiting := by
  refine (List.filterMap_congr fun beat _ => ?_).trans List.filterMap_some
  rw [meet_of_quiet (quiet beat.row)]
  rfl

theorem filterMap_press_of_quiet (quiet : ∀ row, event.pulses enabled row = false)
    (waiting : Waiting α) :
    waiting.filterMap (fun beat => (beat.meet enabled event).press? event) = [] := by
  refine List.filterMap_eq_nil_iff.mpr fun beat _ => ?_
  rw [meet_of_quiet (quiet beat.row)]
  rfl

theorem start?_of_kind {kind : EventKind} (is : event.kind = kind) (freeTime : kind ≠ .freeTime) :
    event.start? timeline enabled = none := by
  unfold Event.start?
  split
  · rename_i found
    exact absurd (is.symm.trans found) freeTime
  · rfl

theorem start?_of_silent (silent : event.soundingRow? enabled = none) :
    event.start? timeline enabled = none := by
  unfold Event.start?
  rw [silent]

/-- A pulse moves each beat of its row, and adds the presses of those that land. -/
theorem pulseAll_outcomes (sounds : event.soundingRow? enabled = some row)
    (kind : event.kind = .pulse)
    (h : FreeTime.pulseAll timeline row event waiting = .ok (next, part)) :
    next = waiting.filterMap (fun beat => (beat.meet enabled event).still?) ∧
      part = .ofPresses timeline
        (waiting.filterMap fun beat => (beat.meet enabled event).press? event) := by
  have pulses (beat : FreeTime α) : event.pulses enabled beat.row = beat.row.same row :=
    pulses_eq_same sounds kind beat.row
  rw [pulseAll_eq_ok_iff] at h
  induction h with
  | nil => exact ⟨rfl, rfl⟩
  | elsewhere apart _ ih =>
    obtain ⟨rfl, rfl⟩ := ih
    simp only [List.filterMap_cons, meet_of_quiet ((pulses _).trans apart)]
    exact ⟨rfl, rfl⟩
  | waits there pulsed _ ih =>
    obtain ⟨rfl, rfl⟩ := ih
    simp only [List.filterMap_cons, meet_of_pulses ((pulses _).trans there) pulsed]
    exact ⟨rfl, rfl⟩
  | removed there pulsed _ ih =>
    obtain ⟨rfl, rfl⟩ := ih
    simp only [List.filterMap_cons, meet_of_pulses ((pulses _).trans there) pulsed]
    exact ⟨rfl, rfl⟩
  | lands there pulsed _ ih =>
    obtain ⟨rfl, rfl⟩ := ih
    simp only [List.filterMap_cons, meet_of_pulses ((pulses _).trans there) pulsed]
    refine ⟨rfl, ?_⟩
    rw [press_eq_ofPresses, ← ofPresses_append]
    rfl

/-- A free-time event adds what it starts: a beat that waits, or a press. -/
theorem add_outcomes {added : Option (FreeTime α)} (sounds : event.soundingRow? enabled = some row)
    (kind : event.kind = .freeTime) (h : FreeTime.add timeline row event = .ok (added, part)) :
    added = (event.start? timeline enabled).bind (·.still?) ∧
      part = .ofPresses timeline
        ((event.start? timeline enabled).bind (·.press? event)).toList := by
  obtain ⟨count, truncated, ⟨last, rfl, rfl⟩ | ⟨notLast, rfl, rfl⟩⟩ := add_cases h
  · have lands : event.start? timeline enabled = some (.lands (timeline.beatOf event)) := by
      simp only [Event.start?, sounds, kind, truncated, if_pos last]
    rw [lands]
    exact ⟨rfl, press_eq_ofPresses _ _⟩
  · have waits : event.start? timeline enabled =
        some (.waits (event.freeTimeBeat timeline row count)) := by
      simp only [Event.start?, sounds, kind, truncated, if_neg notLast]
    rw [waits]
    exact ⟨rfl, rfl⟩

/-- What waits after an event: what it makes of the beats that wait, and the beat that it adds. If
it is a free-time event or a pulse, it adds the presses of the beats that land at it. -/
theorem place_outcomes (h : event.place timeline enabled waiting = .ok (next, part)) :
    next = waiting.filterMap (fun beat => (beat.meet enabled event).still?) ++
        ((event.start? timeline enabled).bind (·.still?)).toList ∧
      (event.kind = .freeTime ∨ event.kind = .pulse →
        part = .ofPresses timeline
          (waiting.filterMap (fun beat => (beat.meet enabled event).press? event) ++
            ((event.start? timeline enabled).bind (·.press? event)).toList)) := by
  -- Where nothing is pulsed and nothing starts, what waits is as it was.
  have stays (quiet : ∀ row, event.pulses enabled row = false)
      (none : event.start? timeline enabled = none) :
      waiting = waiting.filterMap (fun beat => (beat.meet enabled event).still?) ++
        ((event.start? timeline enabled).bind (·.still?)).toList := by
    rw [filterMap_still_of_quiet quiet, none]
    exact (List.append_nil waiting).symm
  have other {kind : EventKind} (is : event.kind = kind) (pulse : kind ≠ .pulse)
      (freeTime : kind ≠ .freeTime) {presses : List (Press α)} :
      waiting = waiting.filterMap (fun beat => (beat.meet enabled event).still?) ++
          ((event.start? timeline enabled).bind (·.still?)).toList ∧
        (event.kind = .freeTime ∨ event.kind = .pulse → part = .ofPresses timeline presses) := by
    refine ⟨stays (pulses_of_kind is pulse) (start?_of_kind is freeTime), ?_⟩
    rw [is]
    rintro (found | found)
    · exact absurd found freeTime
    · exact absurd found pulse
  cases place_eq_ok_iff.mp h with
  | phrase kind => exact other kind nofun nofun
  | finish kind => exact other kind nofun nofun
  | elsewhere stands named silent =>
    have none : event.soundingRow? enabled = none := soundingRow?_eq_none named silent
    have quiet := pulses_of_silent none
    have start : event.start? timeline enabled = Option.none := start?_of_silent none
    refine ⟨stays quiet start, fun _ => ?_⟩
    rw [filterMap_press_of_quiet quiet, start]
    rfl
  | @inRow row _ _ stands named sounds placed =>
    have sounds := soundingRow?_eq_some_iff.mpr ⟨named, sounds⟩
    cases placeInRow_eq_ok_iff.mp placed with
    | oneshot kind => exact other kind nofun nofun
    | classic kind => exact other kind nofun nofun
    | freeTime kind adds =>
      obtain ⟨rfl, rfl⟩ := add_outcomes sounds kind adds
      have quiet : ∀ row, event.pulses enabled row = false := pulses_of_kind kind nofun
      rw [filterMap_still_of_quiet quiet, filterMap_press_of_quiet quiet]
      exact ⟨rfl, fun _ => rfl⟩
    | pulse kind pulsed =>
      obtain ⟨rfl, rfl⟩ := pulseAll_outcomes sounds kind pulsed
      have none : event.start? timeline enabled = none := start?_of_kind kind nofun
      rw [none]
      exact ⟨(List.append_nil _).symm, fun _ => congrArg _ (List.append_nil _).symm⟩
    | nothing _ _ freeTime pulse => exact other rfl pulse freeTime

end Step

/-! ## All events -/

section Follow

variable (timeline : Timeline α) (enabled : List (Name α)) (events : List (Event α))

/-- What an event makes of the beat of an event, given the beat as it waited before: it starts at
its own event. -/
def Event.outcome? (event : Event α) (own : Bool) (before : Option (FreeTime α)) :
    Option (PulseOutcome α) :=
  if own then event.start? timeline enabled else before.map (·.meet enabled event)

/-- The beat that the event at place `j` adds, if it waits after the first `k` events. -/
def beatAfter (j : ℕ) : ℕ → Option (FreeTime α)
  | 0 => none
  | k + 1 => events[k]?.bind fun event =>
      (event.outcome? timeline enabled (k == j) (beatAfter j k)).bind (·.still?)

/-- The press that the event at place `k` adds for the beat of the event at place `j`. -/
def entryAt (j k : ℕ) : Option (Press α) :=
  events[k]?.bind fun event =>
    (event.outcome? timeline enabled (k == j) (beatAfter timeline enabled events j k)).bind
      (·.press? event)

end Follow

section Run

variable {timeline : Timeline α} {enabled : List (Name α)} {events : List (Event α)}
  {event : Event α} {log : List (Event α × Part α)} {waiting after : Waiting α} {part : Part α}
  {j k n : ℕ}

theorem beatAfter_succ (at_k : events[k]? = some event) :
    beatAfter timeline enabled events j (k + 1) =
      (event.outcome? timeline enabled (k == j) (beatAfter timeline enabled events j k)).bind
        (·.still?) := by
  rw [beatAfter, at_k]
  rfl

theorem entryAt_eq (at_k : events[k]? = some event) :
    entryAt timeline enabled events j k =
      (event.outcome? timeline enabled (k == j) (beatAfter timeline enabled events j k)).bind
        (·.press? event) := by
  rw [entryAt, at_k]
  rfl

theorem outcome?_self (before : Option (FreeTime α)) :
    event.outcome? timeline enabled (k == k) before = event.start? timeline enabled := by
  unfold Event.outcome?
  rw [beq_self_eq_true]
  rfl

theorem outcome?_of_ne (ne : k ≠ j) (before : Option (FreeTime α)) :
    event.outcome? timeline enabled (k == j) before = before.map (·.meet enabled event) := by
  unfold Event.outcome?
  rw [beq_eq_false_iff_ne.mpr ne]
  rfl

/-- What an event makes of the beats of all events up to it: of those that wait, and of its own. -/
theorem filterMap_outcome? {β : Type} (f : PulseOutcome α → Option β) :
    (List.range (k + 1)).filterMap (fun j =>
        (event.outcome? timeline enabled (k == j) (beatAfter timeline enabled events j k)).bind f) =
      ((List.range k).filterMap (beatAfter timeline enabled events · k)).filterMap
          (fun beat => f (beat.meet enabled event)) ++
        ((event.start? timeline enabled).bind f).toList := by
  rw [List.range_succ, List.filterMap_append, List.filterMap_filterMap]
  congr 1
  · refine List.filterMap_congr fun j mem => ?_
    rw [outcome?_of_ne (List.mem_range.mp mem).ne', Option.bind_map]
    rfl
  · rw [List.filterMap_cons, List.filterMap_nil, outcome?_self]
    cases (event.start? timeline enabled).bind f <;> rfl

/-- The states that a run goes through, one before each event and one after the last. -/
theorem Placed.exists_states (h : Placed timeline enabled waiting events log after) :
    ∃ states : ℕ → Waiting α, states 0 = waiting ∧ states events.length = after ∧
      (∀ (k : ℕ) (event : Event α), events[k]? = some event →
        ∃ part, log[k]? = some (event, part)) ∧
      ∀ (k : ℕ) (event : Event α) (part : Part α), log[k]? = some (event, part) →
        events[k]? = some event ∧
          event.place timeline enabled (states k) = .ok (states (k + 1), part) := by
  induction h with
  | nil waiting => exact ⟨fun _ => waiting, rfl, rfl, nofun, nofun⟩
  | @cons waiting next after event part events log first rest ih =>
    obtain ⟨states, rfl, final, parts, steps⟩ := ih
    refine ⟨Nat.rec waiting fun k _ => states k, rfl, final, ?_, ?_⟩
    · rintro (_ | k) event' found
      · cases found
        exact ⟨part, rfl⟩
      · exact parts k event' found
    · rintro (_ | k) event' part' found
      · cases found
        exact ⟨rfl, first⟩
      · exact steps k event' part' found

/-- In a run from an empty list, the beats that wait before an event are those of the events before
it that wait still. -/
theorem Placed.exists_states_eq (h : Placed timeline enabled [] events log after) :
    after = (List.range events.length).filterMap
        (beatAfter timeline enabled events · events.length) ∧
      ∀ (k : ℕ) (event : Event α) (part : Part α), log[k]? = some (event, part) →
        events[k]? = some event ∧ ∃ next,
          event.place timeline enabled
              ((List.range k).filterMap (beatAfter timeline enabled events · k)) =
            .ok (next, part) := by
  obtain ⟨states, start, final, parts, steps⟩ := h.exists_states
  have states_eq (k : ℕ) (le : k ≤ events.length) :
      states k = (List.range k).filterMap (beatAfter timeline enabled events · k) := by
    induction k with
    | zero => exact start
    | succ k ih =>
      have at_k := List.getElem?_eq_getElem (Nat.lt_of_succ_le le)
      obtain ⟨part, found⟩ := parts k _ at_k
      rw [(place_outcomes (steps k _ _ found).2).1, ih (Nat.le_of_succ_le le), ← filterMap_outcome?]
      simp only [beatAfter_succ at_k]
  refine ⟨final.symm.trans (states_eq _ le_rfl), fun k event part found => ?_⟩
  obtain ⟨at_k, placed⟩ := steps k event part found
  refine ⟨at_k, states (k + 1), ?_⟩
  rw [← states_eq k (List.getElem?_eq_some_iff.mp at_k).1.le]
  exact placed

/-- A free-time event or a pulse adds the entries of the beats that land at it. -/
theorem Placed.part_eq (h : Placed timeline enabled [] events log after)
    (found : log[k]? = some (event, part)) (kind : event.kind = .freeTime ∨ event.kind = .pulse) :
    part = .ofPresses timeline
      ((List.range (k + 1)).filterMap (entryAt timeline enabled events · k)) := by
  obtain ⟨at_k, next, placed⟩ := h.exists_states_eq.2 k event part found
  rw [(place_outcomes placed).2 kind, ← filterMap_outcome?]
  simp only [entryAt_eq at_k]

end Run

/-! ## A waiting beat -/

/-- A beat that waits for its last pulse, in an enabled row. -/
structure FreeTime.IsPending (enabled : List (Name α)) (beat : FreeTime α) : Prop where
  count_ne : beat.count ≠ Part.hitPulse
  sounds : beat.row.isIn enabled = true

/-- A beat of a free-time event that waits for its last pulse, as the event added it but for its
pulse. -/
structure FreeTime.WaitsFor (timeline : Timeline α) (enabled : List (Name α)) (event : Event α)
    (beat : FreeTime α) : Prop where
  kind : event.kind = .freeTime
  row : event.soundingRow? enabled = some beat.row
  added : beat = event.freeTimeBeat timeline beat.row beat.count
  count_ne : beat.count ≠ Part.hitPulse

section Beat

variable {timeline : Timeline α} {enabled : List (Name α)} {events : List (Event α)}
  {event adder : Event α} {beat later : FreeTime α} {press : Press α} {j k n : ℕ}

theorem FreeTime.WaitsFor.isPending (h : beat.WaitsFor timeline enabled event) :
    beat.IsPending enabled :=
  ⟨h.count_ne, (soundingRow?_eq_some_iff.mp h.row).2⟩

theorem waitsFor_of_start? (h : event.start? timeline enabled = some (.waits beat)) :
    beat.WaitsFor timeline enabled event := by
  unfold Event.start? at h
  split at h
  · rename_i row _ row_eq kind
    split at h
    · cases h
    · split at h
      · cases h
      · rename_i notLast
        cases h
        exact ⟨kind, row_eq, rfl, notLast⟩
  · cases h

/-- What can become of a beat that waits: nothing, or a pulse on its row that meets it after its
place removes it, makes it land, or moves it to a pulse that is not the last one. -/
theorem meet_cases (enabled : List (Name α)) (event : Event α) (beat : FreeTime α) :
    beat.meet enabled event = .waits beat ∨
      (event.pulses enabled beat.row = true ∧ less beat.beat (beat.positionOf event) = true ∧
        (beat.meet enabled event = .removed ∨
          beat.meet enabled event = .lands (beat.positionOf event) ∨
          ∃ count, count ≠ Part.hitPulse ∧
            beat.meet enabled event = .waits { beat with count })) := by
  cases pulses : event.pulses enabled beat.row with
  | false => exact .inl (meet_of_quiet pulses)
  | true =>
    cases does : beat.pulse event with
    | error e =>
      refine .inl ?_
      unfold FreeTime.meet
      rw [if_pos pulses, does]
    | ok outcome =>
      rw [meet_of_pulses pulses does]
      cases pulse_eq_ok_iff.mp does with
      | early => exact .inl rfl
      | removed after => exact .inr ⟨rfl, after, .inl rfl⟩
      | lands after => exact .inr ⟨rfl, after, .inr (.inl rfl)⟩
      | moves after _ _ notLast => exact .inr ⟨rfl, after, .inr (.inr ⟨_, notLast, rfl⟩)⟩

/-- An event changes nothing of a beat that waits on but its pulse, and not to the last one. -/
theorem eq_of_meet (h : beat.meet enabled event = .waits later) :
    later = { beat with count := later.count } ∧
      (later.count = beat.count ∨ later.count ≠ Part.hitPulse) := by
  rcases meet_cases enabled event beat with same | ⟨-, -, removed | lands | ⟨count, notLast, moves⟩⟩
  · cases same.symm.trans h
    exact ⟨rfl, .inl rfl⟩
  · cases removed.symm.trans h
  · cases lands.symm.trans h
  · cases moves.symm.trans h
    exact ⟨rfl, .inr notLast⟩

/-- A beat lands where a pulse on its row meets it, after its place. -/
theorem of_meet_lands {position : α} (h : beat.meet enabled event = .lands position) :
    event.pulses enabled beat.row = true ∧ position = beat.positionOf event ∧
      less beat.beat position = true := by
  rcases meet_cases enabled event beat with same | ⟨pulses, after, removed | lands | ⟨_, -, moves⟩⟩
  · cases same.symm.trans h
  · cases removed.symm.trans h
  · cases lands.symm.trans h
    exact ⟨pulses, rfl, after⟩
  · cases moves.symm.trans h

theorem FreeTime.WaitsFor.of_meet (h : beat.WaitsFor timeline enabled adder)
    (waits : beat.meet enabled event = .waits later) : later.WaitsFor timeline enabled adder := by
  obtain ⟨same, count⟩ := eq_of_meet waits
  have row : later.row = beat.row := by rw [same]
  refine ⟨h.kind, row ▸ h.row, ?_, ?_⟩
  · rw [row, same, h.added]
    rfl
  · exact count.elim (fun same => same ▸ h.count_ne) id

omit [Scalar α] in
theorem still?_eq_some {outcome : PulseOutcome α} :
    outcome.still? = some beat ↔ outcome = .waits beat := by
  cases outcome <;> simp [PulseOutcome.still?]

/-- Whatever events come, the beat of an event waits as it was added, but for its pulse. -/
theorem beatAfter_eq_some (h : beatAfter timeline enabled events j k = some beat) :
    ∃ adder, events[j]? = some adder ∧ beat.WaitsFor timeline enabled adder := by
  induction k generalizing beat with
  | zero => cases h
  | succ k ih =>
    obtain ⟨event, at_k, h⟩ := Option.bind_eq_some_iff.mp h
    obtain ⟨outcome, is, still⟩ := Option.bind_eq_some_iff.mp h
    rw [still?_eq_some] at still
    subst still
    rcases eq_or_ne k j with rfl | ne
    · rw [outcome?_self] at is
      exact ⟨event, at_k, waitsFor_of_start? is⟩
    · rw [outcome?_of_ne ne] at is
      obtain ⟨before, waited, met⟩ := Option.map_eq_some_iff.mp is
      obtain ⟨adder, at_j, waits⟩ := ih waited
      exact ⟨adder, at_j, waits.of_meet met⟩

/-! ## Once -/

theorem beatAfter_of_le (le : k ≤ j) : beatAfter timeline enabled events j k = none := by
  induction k with
  | zero => rfl
  | succ k ih =>
    rw [beatAfter, ih (Nat.le_of_succ_le le)]
    cases events[k]? with
    | none => rfl
    | some event =>
      rw [Option.bind_some, outcome?_of_ne (Nat.lt_of_succ_le le).ne]
      rfl

/-- A beat that does not wait any more after its event never does again. -/
theorem beatAfter_eq_none_of_le (own : j < k) (le : k ≤ n)
    (ended : beatAfter timeline enabled events j k = none) :
    beatAfter timeline enabled events j n = none := by
  induction n, le using Nat.le_induction with
  | base => exact ended
  | succ n le ih =>
    rw [beatAfter, ih]
    cases events[n]? with
    | none => rfl
    | some event =>
      rw [Option.bind_some, outcome?_of_ne (own.trans_le le).ne']
      rfl

/-- Nothing is added for a beat that does not wait. -/
theorem entryAt_eq_none_of_lt (own : j < k) (le : k ≤ n)
    (ended : beatAfter timeline enabled events j k = none) :
    entryAt timeline enabled events j n = none := by
  rw [entryAt, beatAfter_eq_none_of_le own le ended]
  cases events[n]? with
  | none => rfl
  | some event =>
    rw [Option.bind_some, outcome?_of_ne (own.trans_le le).ne']
    rfl

/-- An entry comes from a beat that starts or meets its last pulse there. -/
theorem exists_of_entryAt (h : entryAt timeline enabled events j k = some press) :
    ∃ event position, events[k]? = some event ∧ press = ⟨position, event.pressLength⟩ ∧
      event.outcome? timeline enabled (k == j) (beatAfter timeline enabled events j k) =
        some (.lands position) := by
  obtain ⟨event, at_k, h⟩ := Option.bind_eq_some_iff.mp h
  obtain ⟨outcome, is, pressed⟩ := Option.bind_eq_some_iff.mp h
  cases outcome with
  | lands position =>
    cases pressed
    exact ⟨event, position, at_k, rfl, is⟩
  | waits beat => cases pressed
  | removed => cases pressed

theorem le_of_entryAt (h : entryAt timeline enabled events j k = some press) : j ≤ k := by
  obtain ⟨event, position, -, -, lands⟩ := exists_of_entryAt h
  by_contra lt
  rw [outcome?_of_ne (not_le.mp lt).ne, beatAfter_of_le (not_le.mp lt).le] at lands
  cases lands

theorem kind_of_start? {outcome : PulseOutcome α}
    (h : event.start? timeline enabled = some outcome) : event.kind = .freeTime := by
  by_contra kind
  rw [start?_of_kind rfl kind] at h
  cases h

theorem kind_of_meet_lands {position : α} (h : beat.meet enabled event = .lands position) :
    event.kind = .pulse := by
  by_contra kind
  rw [meet_of_quiet (pulses_of_kind rfl kind beat.row)] at h
  cases h

/-- An entry is for the beat of an event that lands at once, or for one that waits and lands
later. -/
theorem entryAt_cases (h : entryAt timeline enabled events j k = some press) :
    ∃ event position, events[k]? = some event ∧ press = ⟨position, event.pressLength⟩ ∧
      ((j = k ∧ event.start? timeline enabled = some (.lands position)) ∨
        (j < k ∧ ∃ (adder : Event α) (beat : FreeTime α), events[j]? = some adder ∧
          beat.WaitsFor timeline enabled adder ∧ beat.meet enabled event = .lands position)) := by
  obtain ⟨event, position, at_k, rfl, lands⟩ := exists_of_entryAt h
  refine ⟨event, position, at_k, rfl, ?_⟩
  rcases (le_of_entryAt h).eq_or_lt with rfl | lt
  · rw [outcome?_self] at lands
    exact .inl ⟨rfl, lands⟩
  · rw [outcome?_of_ne lt.ne'] at lands
    obtain ⟨beat, waited, met⟩ := Option.map_eq_some_iff.mp lands
    obtain ⟨adder, at_j, waits⟩ := beatAfter_eq_some waited
    exact .inr ⟨lt, adder, beat, at_j, waits, met⟩

/-- An entry is for a free-time event, and is added at that event or at a pulse after it. -/
theorem origin_of_entryAt (h : entryAt timeline enabled events j k = some press) :
    ∃ adder event, events[j]? = some adder ∧ adder.kind = .freeTime ∧
      events[k]? = some event ∧ (j = k ∨ j < k ∧ event.kind = .pulse) := by
  obtain ⟨event, position, at_k, -, ⟨rfl, starts⟩ | ⟨lt, adder, beat, at_j, waits, met⟩⟩ :=
    entryAt_cases h
  · exact ⟨event, event, at_k, kind_of_start? starts, at_k, .inl rfl⟩
  · exact ⟨adder, event, at_j, waits.kind, at_k, .inr ⟨lt, kind_of_meet_lands met⟩⟩

/-- A beat that lands does not wait any more. -/
theorem beatAfter_succ_of_entryAt (h : entryAt timeline enabled events j k = some press) :
    beatAfter timeline enabled events j (k + 1) = none := by
  obtain ⟨event, position, at_k, -, lands⟩ := exists_of_entryAt h
  rw [beatAfter_succ at_k, lands]
  rfl

/-- All entries of a beat are at one event. -/
theorem eq_of_entryAt {other : Press α} (h : entryAt timeline enabled events j k = some press)
    (h' : entryAt timeline enabled events j n = some other) : k = n := by
  have after {k n : ℕ} {press other : Press α}
      (h : entryAt timeline enabled events j k = some press)
      (h' : entryAt timeline enabled events j n = some other) : ¬k < n := by
    intro lt
    rw [entryAt_eq_none_of_lt (Nat.lt_succ_of_le (le_of_entryAt h)) lt
      (beatAfter_succ_of_entryAt h)] at h'
    cases h'
  exact le_antisymm (not_lt.mp (after h' h)) (not_lt.mp (after h h'))

/-- A pulse removes a beat: it is in the row of the beat and stands after it, and asks for that. -/
structure Event.Removes (enabled : List (Name α)) (event : Event α) (beat : FreeTime α) : Prop where
  pulses : event.pulses enabled beat.row = true
  after : less beat.beat (beat.positionOf event) = true
  asks : (Value.get event "action").isText "Remove" = true

theorem meet_of_removes (h : event.Removes enabled beat) :
    beat.meet enabled event = .removed := by
  have asked : PulseAction.ofEvent event = .ok .remove := if_pos h.asks
  exact meet_of_pulses h.pulses (pulse_eq_ok_iff.mpr (.removed h.after asked rfl))

/-- A beat that is removed has no entry from then on. -/
theorem entryAt_of_removes (at_k : events[k]? = some event)
    (waits : beatAfter timeline enabled events j k = some beat)
    (removes : event.Removes enabled beat) (le : k ≤ n) :
    entryAt timeline enabled events j n = none := by
  have own : j < k := by
    by_contra le
    rw [beatAfter_of_le (not_lt.mp le)] at waits
    cases waits
  have outcome : event.outcome? timeline enabled (k == j)
      (beatAfter timeline enabled events j k) = some .removed := by
    rw [outcome?_of_ne own.ne', waits]
    exact congrArg some (meet_of_removes removes)
  rcases le.eq_or_lt with rfl | lt
  · rw [entryAt_eq at_k, outcome]
    rfl
  · refine entryAt_eq_none_of_lt (own.trans k.lt_succ_self) lt ?_
    rw [beatAfter_succ at_k, outcome]
    rfl

end Beat

/-! ## The level -/

section Level

variable {timeline : Timeline α} {enabled : List (Name α)} {events : List (Event α)}
  {log : List (Event α × Part α)} {after : Waiting α}

/-- In a run of events each free-time beat lands at most once. -/
structure LandsOnce (timeline : Timeline α) (enabled : List (Name α)) (events : List (Event α))
    (log : List (Event α × Part α)) : Prop where
  /-- After any first part of the events, the beats that wait do so for their last pulse, in enabled
  rows. -/
  pending {before later : List (Event α)} (h : events = before ++ later) :
    ∃ waiting part, placeAll timeline enabled [] before = .ok (waiting, part) ∧
      ∀ beat ∈ waiting, beat.IsPending enabled
  /-- A free-time event or a pulse adds an entry for each beat that lands at it, and no other. -/
  entries {k : ℕ} {event : Event α} {part : Part α} (found : log[k]? = some (event, part))
    (kind : event.kind = .freeTime ∨ event.kind = .pulse) :
    part = .ofPresses timeline
      ((List.range (k + 1)).filterMap (entryAt timeline enabled events · k))
  /-- An entry is for a free-time event, and is added at that event or at a pulse after it. -/
  origin {j k : ℕ} {press : Press α} (h : entryAt timeline enabled events j k = some press) :
    ∃ adder event, events[j]? = some adder ∧ adder.kind = .freeTime ∧
      events[k]? = some event ∧ (j = k ∨ j < k ∧ event.kind = .pulse)
  /-- An event has one entry at most. -/
  once {j k n : ℕ} {press other : Press α} (h : entryAt timeline enabled events j k = some press)
    (h' : entryAt timeline enabled events j n = some other) : k = n
  /-- Once a pulse has removed its beat, an event has no entry any more. -/
  removed {j k n : ℕ} {event : Event α} {beat : FreeTime α} (at_k : events[k]? = some event)
    (waits : beatAfter timeline enabled events j k = some beat)
    (removes : event.Removes enabled beat) (le : k ≤ n) :
    entryAt timeline enabled events j n = none

/-- A run can be left off after any of its events. -/
theorem Placed.exists_before {waiting : Waiting α} {before later : List (Event α)}
    (h : Placed timeline enabled waiting (before ++ later) log after) :
    ∃ log' state, Placed timeline enabled waiting before log' state := by
  induction before generalizing waiting log with
  | nil => exact ⟨[], waiting, .nil waiting⟩
  | cons event before ih =>
    cases h with
    | cons first rest =>
      obtain ⟨log', state, run⟩ := ih rest
      exact ⟨_, state, .cons first run⟩

theorem Placed.isPending (h : Placed timeline enabled [] events log after) :
    ∀ beat ∈ after, beat.IsPending enabled := by
  intro beat mem
  rw [h.exists_states_eq.1] at mem
  obtain ⟨j, -, waits⟩ := List.mem_filterMap.mp mem
  obtain ⟨adder, -, waits⟩ := beatAfter_eq_some waits
  exact waits.isPending

theorem Placed.landsOnce (h : Placed timeline enabled [] events log after) :
    LandsOnce timeline enabled events log where
  pending := by
    rintro before later rfl
    obtain ⟨log', state, run⟩ := h.exists_before
    exact ⟨state, joined log', placeAll_eq_ok_iff.mpr ⟨log', run, rfl⟩, run.isPending⟩
  entries := h.part_eq
  origin := origin_of_entryAt
  once := eq_of_entryAt
  removed := entryAt_of_removes

/-- In a level that decodes, each free-time beat lands at most once. -/
theorem ofMembers_landsOnce {members : Value.Members α} {entries : List (Value α)}
    {level : Level α} (decodes : Level.ofMembers members entries = .ok level) :
    ∃ enabled log after, enabledRows members = .ok enabled ∧
      Placed level.timeline enabled [] (keptEvents entries) log after ∧
      Level.ofPart level.timeline (joined log) = level ∧
      LandsOnce level.timeline enabled (keptEvents entries) log := by
  obtain ⟨enabled, log, after, rows, run, rfl⟩ := ofMembers_eq_ok_iff.mp decodes
  exact ⟨enabled, log, after, rows, run, rfl, run.landsOnce⟩

/-- Of three beats the second lands at once, and the first at a pulse that holds it. That pulse
stands where the third was added, which the next pulse removes, so that the last adds nothing. -/
theorem ofMembers_landsOnce_removed :
    let whole (name : String) (n : Int) : Text × Value ℚ :=
      (Text.ofString name, .number (.whole n))
    let text (name value : String) : Text × Value ℚ :=
      (Text.ofString name, .text (Text.ofString value))
    let beat (pulse place : Int) : Value ℚ :=
      .object [text "type" "AddFreeTimeBeat", whole "row" 0, whole "pulse" pulse,
        whole "beat" place]
    let pulse (place : Int) (more : Value.Members ℚ) : Value ℚ :=
      .object ([text "type" "PulseFreeTimeBeat", whole "row" 0, whole "beat" place] ++ more)
    let members : Value.Members ℚ := [(Text.ofString "rows", .array [.object [whole "row" 0]])]
    let entries : List (Value ℚ) :=
      [beat 5 1, beat 6 1, beat 0 2, pulse 2 [whole "hold" 1],
        pulse 3 [text "action" "Remove"], pulse 4 [text "action" "Custom", whole "customPulse" 6]]
    ∃ level : Level ℚ, Level.ofMembers members entries = .ok level ∧ level.hits = [0] ∧
      level.holds.map (fun hold => (hold.hit, hold.release)) = [(3 / 5, 6 / 5)] ∧
      ∃ enabled log after, enabledRows members = .ok enabled ∧
        Placed level.timeline enabled [] (keptEvents entries) log after ∧
        Level.ofPart level.timeline (joined log) = level ∧
        LandsOnce level.timeline enabled (keptEvents entries) log := by
  intro whole text beat pulse members entries
  have decoded : (Level.ofMembers members entries).toOption.map
      (fun level => (level.hits, level.holds.map fun hold => (hold.hit, hold.release))) =
      some ([0], [(3 / 5, 6 / 5)]) := by
    simp only [Level.ofMembers, keptEvents, Level.ofPart, ascending, Timeline.ofEvents,
      RateTable.ofBars, RateTable.ofTempos, RateTable.ofChanges, RateTable.ofSchedule,
      sortBy_eq_sorted]
    decide +kernel
  cases h : Level.ofMembers members entries with
  | error e => rw [h] at decoded; cases decoded
  | ok level =>
    rw [h] at decoded
    obtain ⟨hits, holds⟩ := Prod.mk.inj (Option.some.inj decoded)
    exact ⟨level, rfl, hits, holds, ofMembers_landsOnce h⟩

end Level

end CueCheck
