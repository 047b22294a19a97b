import CueCheck.Proofs.Level.Oneshots
import CueCheck.Proofs.Level.Tables
import CueCheck.Proofs.Sorting.Stable
import Mathlib

/-!
# Where the presses of a level come from

Every press of a decoded level has one origin: a oneshot beat, a classic beat, or a free-time beat
that pulses bring to its last pulse. The level is decoded in one pass with a list of beats that
wait. Here each free-time beat is followed on its own, through the events after it.

- **Presses** (`Press`, `FreeTime.press?`, `presses`): the classic and free-time beats of a list of
  events that are pressed, and when.
- **Still to be pressed** (`upcoming`, `upcoming_cons`): events other than pulses leave what waits
  as it is.
- **One event** (`Part.HasPresses`, `hasPresses_of_place`): what it adds is where its oneshots land
  and what is pressed at it, and all else is still to be pressed.
- **A run** (`Placed.hasPresses`): nothing is pressed twice, and nothing is lost.
- **The level** (`Level.HasOrigins`, `ofText_hasOrigins`): hits and holds are the presses, and beats
  are those of the oneshot events.
-/

namespace CueCheck

open Scalar

/-! ## Presses -/

section Press

variable {α : Type} [Scalar α]

/-- A classic or free-time beat that is pressed: where, and for how many beats. -/
structure Press (α : Type) where
  position : α
  length : Number α

namespace Press

/-- A press is a hit if it has no length. -/
def isHit (press : Press α) : Bool :=
  press.length.isZero

/-- When a press comes. -/
def time (timeline : Timeline α) (press : Press α) : α :=
  timeline.time press.position

/-- A press that is held, in seconds. -/
def hold (timeline : Timeline α) (press : Press α) : Hold α :=
  { hit := press.time timeline
    release := timeline.time (press.position + press.length.toScalar) }

end Press

/-- The row that an event stands in, if it is enabled. -/
def Event.soundingRow? (enabled : List (Name α)) (event : Event α) : Option (Name α) :=
  match rowName event with
  | .ok row => if row.isIn enabled then some row else none
  | .error _ => none

theorem soundingRow?_eq_some_iff {enabled : List (Name α)} {event : Event α} {row : Name α} :
    event.soundingRow? enabled = some row ↔
      rowName event = .ok row ∧ row.isIn enabled = true := by
  unfold Event.soundingRow?
  cases rowName event with
  | error e => simp
  | ok name =>
    simp only [Option.ite_none_right_eq_some, Option.some.injEq, Except.ok.injEq]
    constructor
    · rintro ⟨sounds, rfl⟩
      exact ⟨rfl, sounds⟩
    · rintro ⟨rfl, sounds⟩
      exact ⟨sounds, rfl⟩

theorem soundingRow?_eq_none {enabled : List (Name α)} {event : Event α} {row : Name α}
    (named : rowName event = .ok row) (silent : row.isIn enabled = false) :
    event.soundingRow? enabled = none := by
  unfold Event.soundingRow?
  rw [named]
  exact if_neg (by rw [silent]; exact Bool.false_ne_true)

/-- An event adds a oneshot in an enabled row. -/
def Event.isOneshotIn (enabled : List (Name α)) (event : Event α) : Bool :=
  event.kind == .oneshot && (event.soundingRow? enabled).isSome

/-- An event pulses the free-time beats of a row. -/
def Event.pulses (enabled : List (Name α)) (row : Name α) (event : Event α) : Bool :=
  event.kind == .pulse && (event.soundingRow? enabled).any row.same

/-- The press of a free-time beat that waits, if the later pulses on its row bring it to its last
pulse before one of them removes it. Pulses count only where they stand after the beat. -/
def FreeTime.press? (enabled : List (Name α)) : FreeTime α → List (Event α) → Option (Press α)
  | _, [] => none
  | beat, event :: later =>
    let position := beat.positionOf event
    if event.pulses enabled beat.row && less beat.beat position then
      match PulseAction.ofEvent event with
      | .error _ => none
      | .ok action =>
        match action.next? beat.count with
        | none => none
        | some count =>
          if count = Part.hitPulse then some ⟨position, event.pressLength⟩
          else FreeTime.press? enabled { beat with count } later
    else beat.press? enabled later

/-- The press of a classic event, six ticks after it begins. -/
def Event.classicPress (timeline : Timeline α) (event : Event α) : Press α where
  position := timeline.beatOf event +
    ((Value.getNumber event "tick" (.whole 1)).mul Part.hitPulse).toScalar
  length := event.pressLength

/-- The press of the classic or free-time beat that an event adds, given the events after it. -/
def Event.press? (timeline : Timeline α) (enabled : List (Name α)) (event : Event α)
    (later : List (Event α)) : Option (Press α) :=
  match event.soundingRow? enabled, event.kind with
  | some _, .classic => some (event.classicPress timeline)
  | some row, .freeTime =>
    match (Value.getNumber event "pulse" (.whole 0)).truncate with
    | .error _ => none
    | .ok count =>
      if count = Part.hitPulse then some ⟨timeline.beatOf event, event.pressLength⟩
      else (event.freeTimeBeat timeline row count).press? enabled later
  | _, _ => none

/-- The presses of the classic and free-time beats that a list of events adds. -/
def presses (timeline : Timeline α) (enabled : List (Name α)) : List (Event α) → List (Press α)
  | [] => []
  | event :: later =>
    (event.press? timeline enabled later).toList ++ presses timeline enabled later

/-- All that is still to be pressed: of the beats that wait, and of those that events add. -/
def upcoming (timeline : Timeline α) (enabled : List (Name α)) (waiting : Waiting α)
    (events : List (Event α)) : Multiset (Press α) :=
  (waiting.filterMap (·.press? enabled events) : Multiset (Press α)) +
    presses timeline enabled events

/-! ## What is still to be pressed -/

section Upcoming

variable {timeline : Timeline α} {enabled : List (Name α)} {event : Event α} {row : Name α}

theorem coe_filterMap_cons {β γ : Type} (f : β → Option γ) (b : β) (bs : List β) :
    ((b :: bs).filterMap f : Multiset γ) =
      ((f b).toList : Multiset γ) + (bs.filterMap f : Multiset γ) := by
  rw [List.filterMap_cons]
  cases f b <;> rfl

theorem press?_cons_of_quiet {beat : FreeTime α} {later : List (Event α)}
    (quiet : event.pulses enabled beat.row = false) :
    beat.press? enabled (event :: later) = beat.press? enabled later := by
  rw [FreeTime.press?, quiet, Bool.false_and]
  rfl

theorem press?_cons_of_pulses {beat : FreeTime α} {later : List (Event α)}
    (pulses : event.pulses enabled beat.row = true) {outcome : PulseOutcome α} :
    beat.pulse event = .ok outcome → beat.press? enabled (event :: later) =
      match outcome with
      | .waits beat => beat.press? enabled later
      | .lands position => some ⟨position, event.pressLength⟩
      | .removed => none := by
  intro does
  rw [FreeTime.press?, pulses, Bool.true_and]
  cases pulse_eq_ok_iff.mp does with
  | early before => exact if_neg (Bool.eq_false_iff.mp before)
  | removed after asked ends => simp only [if_pos after, asked, ends]
  | lands after asked last => simp only [if_pos after, asked, last, ↓reduceIte]
  | moves after asked next notLast => simp only [if_pos after, asked, next, if_neg notLast]

theorem pulses_of_kind {kind : EventKind} (is : event.kind = kind) (quiet : kind ≠ .pulse)
    (row : Name α) : event.pulses enabled row = false := by
  unfold Event.pulses
  rw [is, beq_eq_false_iff_ne.mpr quiet]
  rfl

theorem pulses_eq_same (sounds : event.soundingRow? enabled = some row)
    (kind : event.kind = .pulse) (other : Name α) :
    event.pulses enabled other = other.same row := by
  unfold Event.pulses
  rw [kind, sounds]
  rfl

theorem pulses_of_silent (silent : event.soundingRow? enabled = none) (row : Name α) :
    event.pulses enabled row = false := by
  unfold Event.pulses
  rw [silent]
  exact Bool.and_false _

/-- Without a pulse, only the press of the event's own beat comes up. -/
theorem upcoming_cons (h : ∀ row, event.pulses enabled row = false) (waiting : Waiting α)
    (later : List (Event α)) :
    upcoming timeline enabled waiting (event :: later) =
      ((event.press? timeline enabled later).toList : Multiset (Press α)) +
        upcoming timeline enabled waiting later := by
  unfold upcoming
  have same : (fun beat : FreeTime α => beat.press? enabled (event :: later)) =
      fun beat => beat.press? enabled later :=
    funext fun beat => press?_cons_of_quiet (h beat.row)
  rw [same, presses, ← Multiset.coe_add, add_left_comm]

/-- An event that adds no classic or free-time beat, and is no pulse, brings no press up. -/
theorem upcoming_of_press?_eq_none {waiting : Waiting α} {later : List (Event α)}
    (quiet : ∀ row, event.pulses enabled row = false)
    (none : event.press? timeline enabled later = none) :
    upcoming timeline enabled waiting (event :: later) =
      0 + upcoming timeline enabled waiting later := by
  rw [upcoming_cons quiet, none]
  rfl

theorem press?_of_kind {kind : EventKind} {later : List (Event α)} (is : event.kind = kind)
    (classic : kind ≠ .classic) (freeTime : kind ≠ .freeTime) :
    event.press? timeline enabled later = none := by
  unfold Event.press?
  split
  · rename_i found
    exact absurd (is.symm.trans found) classic
  · rename_i found
    exact absurd (is.symm.trans found) freeTime
  · rfl

end Upcoming

end Press

/-! ## What a part presses -/

section Step

variable {timeline : Timeline ℚ} {enabled : List (Name ℚ)} {event : Event ℚ} {row : Name ℚ}

/-- A part has the given beats. Its hits are where they land and the presses without length, and its
holds are the other presses. -/
structure Part.HasPresses (timeline : Timeline ℚ) (part : Part ℚ) (given : List (Beat ℚ))
    (pressed : Multiset (Press ℚ)) : Prop where
  beats : part.beats = given
  hits : (part.hits : Multiset ℚ) =
    (part.beats.map Beat.landing : Multiset ℚ) +
      (pressed.filter (·.isHit)).map (Press.time timeline)
  holds : (part.holds : Multiset (Hold ℚ)) =
    (pressed.filter (!·.isHit)).map (Press.hold timeline)

namespace Part.HasPresses

theorem none : Part.none.HasPresses timeline [] 0 := ⟨rfl, rfl, rfl⟩

theorem append {a b : Part ℚ} {beats others : List (Beat ℚ)} {p q : Multiset (Press ℚ)}
    (ha : a.HasPresses timeline beats p) (hb : b.HasPresses timeline others q) :
    (a ++ b).HasPresses timeline (beats ++ others) (p + q) where
  beats := by rw [Part.beats_append, ha.beats, hb.beats]
  hits := by
    rw [Part.hits_append, Part.beats_append, List.map_append, ← Multiset.coe_add,
      ← Multiset.coe_add, ha.hits, hb.hits, Multiset.filter_add, Multiset.map_add,
      add_add_add_comm]
  holds := by
    rw [Part.holds_append, ← Multiset.coe_add, ha.holds, hb.holds, Multiset.filter_add,
      Multiset.map_add]

theorem press (position : ℚ) (length : Number ℚ) :
    (Part.press timeline position length).HasPresses timeline [] {⟨position, length⟩} := by
  have isHit : Press.isHit (⟨position, length⟩ : Press ℚ) = length.isZero := rfl
  unfold Part.press
  cases hit : length.isZero
  all_goals
    rw [hit] at isHit
    refine ⟨rfl, ?_, ?_⟩ <;> rw [Multiset.filter_singleton] <;> simp only [isHit] <;> rfl

end Part.HasPresses

/-! ## One event -/

/-- The beat that a free-time event adds is still to be pressed, unless it is pressed at once. -/
theorem hasPresses_of_add {added : Option (FreeTime ℚ)} {part : Part ℚ}
    (sounds : event.soundingRow? enabled = some row) (kind : event.kind = .freeTime)
    (h : FreeTime.add timeline row event = .ok (added, part)) (waiting : Waiting ℚ)
    (later : List (Event ℚ)) :
    ∃ pressed, part.HasPresses timeline [] pressed ∧
      upcoming timeline enabled waiting (event :: later) =
        pressed + upcoming timeline enabled (waiting ++ added.toList) later := by
  rw [upcoming_cons (pulses_of_kind kind nofun)]
  obtain ⟨count, truncated, ⟨last, rfl, rfl⟩ | ⟨notLast, rfl, rfl⟩⟩ := add_cases h
  · have once : event.press? timeline enabled later =
        some ⟨timeline.beatOf event, event.pressLength⟩ := by
      simp only [Event.press?, sounds, kind, truncated, if_pos last]
    rw [once, Option.toList_none, List.append_nil]
    exact ⟨_, .press _ _, rfl⟩
  · have waits : event.press? timeline enabled later =
        (event.freeTimeBeat timeline row count).press? enabled later := by
      simp only [Event.press?, sounds, kind, truncated, if_neg notLast]
    refine ⟨0, .none, ?_⟩
    unfold upcoming
    rw [waits, zero_add, List.filterMap_append, ← Multiset.coe_add, Option.toList_some,
      coe_filterMap_cons, List.filterMap_nil, Multiset.coe_nil, add_zero, ← add_assoc]
    exact congrArg (· + _) (add_comm _ _)

/-- A pulse presses the beats that it brings to their last pulse, and removes some. All others of
those that wait are still to be pressed. -/
theorem hasPresses_of_pulseAll {waiting next : Waiting ℚ} {part : Part ℚ}
    (sounds : event.soundingRow? enabled = some row) (kind : event.kind = .pulse)
    (h : FreeTime.pulseAll timeline row event waiting = .ok (next, part))
    (later : List (Event ℚ)) :
    ∃ pressed, part.HasPresses timeline [] pressed ∧
      (waiting.filterMap (·.press? enabled (event :: later)) : Multiset (Press ℚ)) =
        pressed + (next.filterMap (·.press? enabled later) : Multiset (Press ℚ)) := by
  have pulses (beat : FreeTime ℚ) : event.pulses enabled beat.row = beat.row.same row :=
    pulses_eq_same sounds kind beat.row
  rw [pulseAll_eq_ok_iff] at h
  induction h with
  | nil => exact ⟨0, .none, rfl⟩
  | elsewhere apart _ ih =>
    obtain ⟨pressed, has, others⟩ := ih
    refine ⟨pressed, has, ?_⟩
    rw [coe_filterMap_cons, press?_cons_of_quiet ((pulses _).trans apart), others,
      coe_filterMap_cons, add_left_comm]
  | waits there pulsed _ ih =>
    obtain ⟨pressed, has, others⟩ := ih
    refine ⟨pressed, has, ?_⟩
    rw [coe_filterMap_cons, press?_cons_of_pulses ((pulses _).trans there) pulsed, others,
      coe_filterMap_cons, add_left_comm]
  | removed there pulsed _ ih =>
    obtain ⟨pressed, has, others⟩ := ih
    refine ⟨pressed, has, ?_⟩
    rw [coe_filterMap_cons, press?_cons_of_pulses ((pulses _).trans there) pulsed, others]
    exact zero_add _
  | lands there pulsed _ ih =>
    obtain ⟨pressed, has, others⟩ := ih
    refine ⟨_, .append (.press _ _) has, ?_⟩
    rw [coe_filterMap_cons, press?_cons_of_pulses ((pulses _).trans there) pulsed, others]
    exact (add_assoc _ _ _).symm

/-- An event adds the beats of its oneshot and the presses that come up at it, and no other press
comes up. -/
theorem hasPresses_of_place {waiting next : Waiting ℚ} {part : Part ℚ}
    (h : event.place timeline enabled waiting = .ok (next, part)) (later : List (Event ℚ)) :
    ∃ groups pressed,
      List.Forall₂ (Event.Repeats timeline) ([event].filter (·.isOneshotIn enabled)) groups ∧
        part.HasPresses timeline groups.flatten pressed ∧
        upcoming timeline enabled waiting (event :: later) =
          pressed + upcoming timeline enabled next later := by
  have still {kind : EventKind} (is : event.kind = kind) (pulse : kind ≠ .pulse)
      (classic : kind ≠ .classic) (freeTime : kind ≠ .freeTime) :
      upcoming timeline enabled waiting (event :: later) =
        0 + upcoming timeline enabled waiting later :=
    upcoming_of_press?_eq_none (pulses_of_kind is pulse) (press?_of_kind is classic freeTime)
  have noBeats {kind : EventKind} (is : event.kind = kind) (oneshot : kind ≠ .oneshot) :
      List.Forall₂ (Event.Repeats timeline) ([event].filter (·.isOneshotIn enabled)) [] := by
    rw [List.filter_singleton, Event.isOneshotIn, is, beq_eq_false_iff_ne.mpr oneshot]
    exact .nil
  cases place_eq_ok_iff.mp h with
  | phrase kind said =>
    refine ⟨[], 0, noBeats kind nofun, ?_, still kind nofun nofun nofun⟩
    rcases spoken_cases said with rfl | ⟨voice, -, parts, rfl⟩ <;> exact ⟨rfl, rfl, rfl⟩
  | finish kind =>
    exact ⟨[], 0, noBeats kind nofun, ⟨rfl, rfl, rfl⟩, still kind nofun nofun nofun⟩
  | elsewhere stands named silent =>
    have none : event.soundingRow? enabled = none := soundingRow?_eq_none named silent
    refine ⟨[], 0, ?_, .none, upcoming_of_press?_eq_none (pulses_of_silent none)
      (by simp only [Event.press?, none])⟩
    rw [List.filter_singleton, Event.isOneshotIn, none, Option.isSome_none, Bool.and_false]
    exact .nil
  | inRow stands named sounds placed =>
    have sounds := soundingRow?_eq_some_iff.mpr ⟨named, sounds⟩
    cases placeInRow_eq_ok_iff.mp placed with
    | oneshot kind repeated =>
      obtain ⟨repeats, hits, holds⟩ := repeats_of_oneshot repeated
      refine ⟨[part.beats], 0, ?_, ⟨(List.append_nil _).symm, ?_, by rw [holds]; rfl⟩,
        still kind nofun nofun nofun⟩
      · rw [List.filter_singleton, Event.isOneshotIn, kind, sounds]
        exact .cons repeats .nil
      · rw [hits]
        exact (add_zero _).symm
    | classic kind =>
      have once : event.press? timeline enabled later = some (event.classicPress timeline) := by
        simp only [Event.press?, sounds, kind]
      rw [upcoming_cons (pulses_of_kind kind nofun), once]
      exact ⟨[], _, noBeats kind nofun, .press _ _, rfl⟩
    | freeTime kind adds =>
      exact ⟨[], (hasPresses_of_add sounds kind adds waiting later).imp fun _ has =>
        ⟨noBeats kind nofun, has⟩⟩
    | pulse kind pulsed =>
      obtain ⟨pressed, has, others⟩ := hasPresses_of_pulseAll sounds kind pulsed later
      refine ⟨[], pressed, noBeats kind nofun, has, ?_⟩
      have none : event.press? timeline enabled later = none :=
        press?_of_kind kind nofun nofun
      unfold upcoming
      rw [others, presses, none, add_assoc]
      rfl
    | nothing oneshot classic freeTime pulse =>
      exact ⟨[], 0, noBeats rfl oneshot, .none, still rfl pulse classic freeTime⟩

end Step

/-! ## A run -/

/-- A run adds the beats of its oneshots, and presses all that is still to be pressed at its
start. -/
theorem Placed.hasPresses {timeline : Timeline ℚ} {enabled : List (Name ℚ)}
    {events : List (Event ℚ)} {trace : List (Event ℚ × Part ℚ)} {waiting after : Waiting ℚ}
    (h : Placed timeline enabled waiting events trace after) :
    ∃ groups, List.Forall₂ (Event.Repeats timeline) (events.filter (·.isOneshotIn enabled)) groups ∧
      (joined trace).HasPresses timeline groups.flatten
        (upcoming timeline enabled waiting events) := by
  induction h with
  | nil waiting =>
    have nothing : upcoming timeline enabled waiting [] = 0 := by
      unfold upcoming
      rw [List.filterMap_eq_nil_iff.mpr fun beat _ => FreeTime.press?.eq_1 enabled beat]
      rfl
    rw [nothing]
    exact ⟨[], .nil, .none⟩
  | cons first _ ih =>
    obtain ⟨groups, pressed, repeats, has, still⟩ := hasPresses_of_place first _
    obtain ⟨others, othersRepeat, later⟩ := ih
    refine ⟨groups ++ others, ?_, ?_⟩
    · rw [← List.singleton_append, List.filter_append]
      exact List.rel_append repeats othersRepeat
    · rw [still, List.flatten_append]
      exact has.append later

/-! ## The level -/

/-- The bar lengths and tempos of a level. -/
def Level.timeline {α : Type} (level : Level α) : Timeline α :=
  ⟨level.bars, level.tempos⟩

/-- A level has the beats of the oneshot events, which land where they are hit, and the presses of
the classic and free-time beats. -/
structure Level.HasOrigins (level : Level ℚ) (enabled : List (Name ℚ)) (events : List (Event ℚ)) :
    Prop where
  /-- Each oneshot event in an enabled row has a group of beats. -/
  beats : ∃ groups, (level.beats : Multiset (Beat ℚ)) = (groups.flatten : List (Beat ℚ)) ∧
    List.Forall₂ (Event.Repeats level.timeline) (events.filter (·.isOneshotIn enabled)) groups
  hits : (level.hits : Multiset ℚ) = (level.beats.map Beat.landing : Multiset ℚ) +
    ((presses level.timeline enabled events).filter (·.isHit)).map (Press.time level.timeline)
  holds : (level.holds : Multiset (Hold ℚ)) =
    ((presses level.timeline enabled events).filter (!·.isHit)).map (Press.hold level.timeline)

/-- Every hit, hold and beat of a decoded level has its origin in an event that takes effect in an
enabled row, and each such event gives the level all that comes of it. -/
theorem ofText_hasOrigins {text : List Char} {level : Level ℚ}
    (decodes : Level.ofText text = .ok level) :
    ∃ members enabled, (LevelText.decode text : Value ℚ) = .object members ∧
      enabledRows members = .ok enabled ∧
      level.HasOrigins enabled (LevelText.decode text : Value ℚ).events := by
  obtain ⟨members, entries, object, events, decodes⟩ := ofValue_eq_ok_iff.mp decodes
  obtain ⟨enabled, trace, after, rows, run, rfl⟩ := ofMembers_eq_ok_iff.mp decodes
  have kept : (LevelText.decode text : Value ℚ).events = keptEvents entries := by
    unfold Value.events
    simp only [object, events]
  obtain ⟨groups, repeats, has⟩ := run.hasPresses
  have none : upcoming (.ofEvents (keptEvents entries)) enabled [] (keptEvents entries) =
      presses (.ofEvents (keptEvents entries)) enabled (keptEvents entries) := zero_add _
  have hits := has.hits
  have holds := has.holds
  simp only [none, Multiset.filter_coe, Multiset.map_coe, Bool.decide_eq_true] at hits holds
  have beats : (sortBy Beat.precedes (joined trace).beats).Perm (joined trace).beats :=
    sortBy_perm _ _
  have landings := Multiset.coe_eq_coe.mpr (beats.map Beat.landing)
  rw [← landings] at hits
  rw [kept]
  refine ⟨members, enabled, object, rows, ⟨groups, ?_, repeats⟩, ?_, ?_⟩
  · exact (Multiset.coe_eq_coe.mpr beats).trans (congrArg _ has.beats)
  · exact (Multiset.coe_eq_coe.mpr (sortBy_perm _ _)).trans hits
  · exact (Multiset.coe_eq_coe.mpr (sortBy_perm _ _)).trans holds

/-- Two burnshots, and a free-time beat on its last pulse but one: a pulse brings it to its last
where the first shot lands, and holds it. -/
def burnshotText : List Char :=
  ("\x7b\"rows\":[\x7b\"row\":0\x7d],\"events\":[" ++
    "\x7b\"type\":\"AddOneshotBeat\",\"row\":0,\"loops\":1,\"interval\":2,\"delay\":1," ++
    "\"freezeBurnMode\":\"Burnshot\"\x7d," ++
    "\x7b\"type\":\"AddFreeTimeBeat\",\"row\":0,\"pulse\":5\x7d," ++
    "\x7b\"type\":\"PulseFreeTimeBeat\",\"row\":0,\"beat\":3,\"hold\":1\x7d]\x7d").toList

theorem ofText_hasOrigins_burnshots :
    ∃ level : Level ℚ, Level.ofText burnshotText = .ok level ∧ level.hits = [6 / 5, 12 / 5] ∧
      level.holds.map (fun hold => (hold.hit, hold.release)) = [(6 / 5, 9 / 5)] ∧
      ∃ members enabled, (LevelText.decode burnshotText : Value ℚ) = .object members ∧
        enabledRows members = .ok enabled ∧
        level.HasOrigins enabled (LevelText.decode burnshotText : Value ℚ).events := by
  -- Unfolded for a value that is not known yet, so that the kernel reads the text only once.
  have evaluates := (fun value => by
    simp only [Level.ofValue, Level.ofMembers, Level.ofPart, ascending, keptEvents,
      Timeline.ofEvents, RateTable.ofBars, RateTable.ofTempos, RateTable.ofChanges,
      RateTable.ofSchedule, sortBy_eq_sorted]
    rfl : ∀ value : Value ℚ, Level.ofValue value = _)
  have decoded : (Level.ofText burnshotText : Except LevelError (Level ℚ)).toOption.map
      (fun level => (level.hits, level.holds.map fun hold => (hold.hit, hold.release))) =
      some ([6 / 5, 12 / 5], [(6 / 5, 9 / 5)]) := by
    rw [Level.ofText, evaluates]
    decide +kernel
  cases h : (Level.ofText burnshotText : Except LevelError (Level ℚ)) with
  | error e => rw [h] at decoded; cases decoded
  | ok level =>
    rw [h] at decoded
    obtain ⟨hits, holds⟩ := Prod.mk.inj (Option.some.inj decoded)
    exact ⟨level, rfl, hits, holds, ofText_hasOrigins h⟩

end CueCheck
