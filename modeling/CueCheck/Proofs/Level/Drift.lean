import CueCheck.Proofs.Level.Waiting
import CueCheck.Proofs.RateTable.Accumulation
import Mathlib

/-!
# Where free-time beats land

A free-time beat that waits keeps the bar length of the bar in which it was added, and where it
lands is counted in bars of that length. So it lands away from its pulse if bar lengths change in
between.

- **Bars** (`pairwise_bar_keptEvents`): events come by bar.
- **Drift** (`Timeline.drift`, `positionOf_freeTimeBeat`, `drift_eq_zero`): how far the position at
  which a pulse meets a beat is from that of the pulse. It is not if no event sets a bar length in
  between.
- **Landing** (`LandsAt`, `landsAt_of_entryAt`): what comes before a beat lands at a pulse, and where
  it does.
- **The level** (`ofMembers_pulseStarts`): so it is in every level that decodes. A change of the bar
  length makes a beat land elsewhere (`ofMembers_pulseStarts_drifting`).
-/

namespace CueCheck

open Scalar

/-! ## Bars -/

theorem toScalar_sub_rat (n : Number ℚ) (k : ℤ) : (n.sub k).toScalar = n.toScalar - k := by
  cases n with
  | whole n => exact Int.cast_sub n k
  | real x => rfl

theorem less_eq_decide_rat (m n : Number ℚ) : m.less n = decide (m.toScalar < n.toScalar) := by
  cases m <;> cases n <;> rfl

theorem pairwise_bar_keptEvents (entries : List (Value ℚ)) :
    (keptEvents entries).Pairwise fun a b => a.bar.toScalar ≤ b.bar.toScalar := by
  unfold keptEvents
  refine List.Pairwise.filter _ (pairwise_sortBy fun a _ b _ => ?_)
  exact less_eq_decide_rat a.bar b.bar

/-! ## Drift -/

/-- How many beats more the bars from one event's up to another's would have if all of them were as
long as the first. -/
def Timeline.drift (timeline : Timeline ℚ) (adder event : Event ℚ) : ℚ :=
  (event.bar.toScalar - adder.bar.toScalar) * timeline.crotchetsOf adder -
    (timeline.bars.forward (event.bar.toScalar - 1) -
      timeline.bars.forward (adder.bar.toScalar - 1))

/-- No event sets a bar length after the bar of one event and before that of another. -/
def KeepsBars (events : List (Event ℚ)) (adder event : Event ℚ) : Prop :=
  ∀ other ∈ events, other.kind = .barLength →
    other.bar.toScalar ≤ adder.bar.toScalar ∨ event.bar.toScalar ≤ other.bar.toScalar

section Drift

variable {timeline : Timeline ℚ} {adder event : Event ℚ}

theorem positionOf_freeTimeBeat (row : Name ℚ) (count : ℤ) :
    (adder.freeTimeBeat timeline row count).positionOf event =
      timeline.beatOf event + timeline.drift adder event := by
  have beatOf (event : Event ℚ) : timeline.beatOf event =
      timeline.bars.forward (event.bar.toScalar - 1) + (event.beatInBar.toScalar - 1) := by
    show timeline.bars.forward (event.bar.sub 1).toScalar + (event.beatInBar.sub 1).toScalar = _
    rw [toScalar_sub_rat, toScalar_sub_rat, Int.cast_one]
  unfold FreeTime.positionOf Event.freeTimeBeat Timeline.drift
  simp only [beatOf]
  ring

theorem barChange?_eq_some_iff {change : RateChange ℚ} :
    barChange? event = some change ↔ event.kind = .barLength ∧
      change = ⟨event.bar.toScalar - 1,
        (Value.getNumber event "crotchetsPerBar" (.whole 8)).toScalar⟩ := by
  unfold barChange?
  rw [toScalar_sub_rat, Int.cast_one]
  cases event.kind <;> simp [eq_comm]

/-- Between bars of one length nothing drifts. -/
theorem drift_eq_zero {events : List (Event ℚ)}
    (le : adder.bar.toScalar ≤ event.bar.toScalar) (keeps : KeepsBars events adder event) :
    (Timeline.ofEvents events).drift adder event = 0 := by
  have none : ∀ change ∈ events.filterMap barChange?,
      change.key ≤ adder.bar.toScalar - 1 ∨ event.bar.toScalar - 1 ≤ change.key := by
    intro change mem
    obtain ⟨other, among, sets⟩ := List.mem_filterMap.mp mem
    obtain ⟨kind, rfl⟩ := barChange?_eq_some_iff.mp sets
    exact (keeps other among kind).imp (sub_le_sub_right · 1) (sub_le_sub_right · 1)
  have grows : (Timeline.ofEvents events).bars.forward (event.bar.toScalar - 1) =
      (Timeline.ofEvents events).bars.forward (adder.bar.toScalar - 1) +
        (event.bar.toScalar - 1 - (adder.bar.toScalar - 1)) *
          (Timeline.ofEvents events).bars.rateAt (adder.bar.toScalar - 1) :=
    RateTable.forward_of_none_between (sub_le_sub_right le 1) none
  unfold Timeline.drift Timeline.crotchetsOf
  rw [grows, toScalar_sub_rat, Int.cast_one]
  ring

end Drift

/-! ## Landing -/

/-- The beat that one event adds lands at a pulse on its row, in no earlier bar. The position is off
that of the pulse by the drift, and comes after that of the beat. -/
structure LandsAt (timeline : Timeline ℚ) (enabled : List (Name ℚ)) (adder event : Event ℚ)
    (position : ℚ) : Prop where
  kind : adder.kind = .freeTime
  row : ∃ row, adder.soundingRow? enabled = some row ∧ event.pulses enabled row = true
  bar_le : adder.bar.toScalar ≤ event.bar.toScalar
  position_eq : position = timeline.beatOf event + timeline.drift adder event
  after : timeline.beatOf adder < position

/-- When hits and holds of a part start. -/
def Part.starts {α : Type} (part : Part α) : List α :=
  part.hits ++ part.holds.map Hold.hit

section Landing

variable {timeline : Timeline ℚ} {enabled : List (Name ℚ)} {events : List (Event ℚ)}

/-- An entry at a pulse is where the beat of an earlier event has come to. -/
theorem landsAt_of_entryAt {j k : ℕ} {event : Event ℚ} {press : Press ℚ}
    (bars : events.Pairwise fun a b => a.bar.toScalar ≤ b.bar.toScalar)
    (at_k : events[k]? = some event) (kind : event.kind = .pulse)
    (h : entryAt timeline enabled events j k = some press) :
    ∃ adder ∈ events.take k, LandsAt timeline enabled adder event press.position := by
  obtain ⟨event', position, at_k', rfl, ⟨rfl, starts⟩ | ⟨lt, adder, beat, at_j, waits, met⟩⟩ :=
    entryAt_cases h
  · -- A pulse adds no beat of its own.
    obtain rfl : event = event' := Option.some.inj (at_k.symm.trans at_k')
    rw [start?_of_kind kind nofun] at starts
    cases starts
  · obtain rfl : event = event' := Option.some.inj (at_k.symm.trans at_k')
    obtain ⟨pulses, position_eq, after⟩ := of_meet_lands met
    have adder_mem : adder ∈ events.take k :=
      List.mem_of_getElem? ((List.getElem?_take_of_lt lt).trans at_j)
    have event_mem : event ∈ events.drop k := by
      refine List.mem_of_getElem? (i := 0) ?_
      rw [List.getElem?_drop]
      exact at_k
    rw [← List.take_append_drop k events, List.pairwise_append] at bars
    rw [waits.added] at position_eq after
    refine ⟨adder, adder_mem, waits.kind, ⟨beat.row, waits.row, pulses⟩,
      bars.2.2 adder adder_mem event event_mem, ?_, less_iff.mp after⟩
    exact position_eq.trans (positionOf_freeTimeBeat _ _)

theorem mem_starts_ofPresses {presses : List (Press ℚ)} {start : ℚ}
    (mem : start ∈ (Part.ofPresses timeline presses).starts) :
    ∃ press ∈ presses, timeline.time press.position = start := by
  have of_filter {p : Press ℚ → Bool} (mem : start ∈ (presses.filter p).map (Press.time timeline)) :
      ∃ press ∈ presses, timeline.time press.position = start := by
    obtain ⟨press, mem, time⟩ := List.mem_map.mp mem
    exact ⟨press, (List.mem_filter.mp mem).1, time⟩
  rcases List.mem_append.mp mem with mem | mem
  · exact of_filter mem
  · unfold Part.ofPresses at mem
    rw [List.map_map] at mem
    exact of_filter mem

end Landing

/-! ## The level -/

/-- In a level that decodes, what a pulse adds starts where its beat has come to, and this is where
the pulse stands if no event sets a bar length in between. -/
theorem ofMembers_pulseStarts {members : Value.Members ℚ} {entries : List (Value ℚ)}
    {level : Level ℚ} (decodes : Level.ofMembers members entries = .ok level) :
    ∃ enabled log after, enabledRows members = .ok enabled ∧
      Placed level.timeline enabled [] (keptEvents entries) log after ∧
      Level.ofPart level.timeline (joined log) = level ∧
      ∀ (k : ℕ) (event : Event ℚ) (part : Part ℚ), log[k]? = some (event, part) →
        event.kind = .pulse → ∀ start ∈ part.starts,
          ∃ adder ∈ (keptEvents entries).take k, ∃ position,
            LandsAt level.timeline enabled adder event position ∧
            start = level.timeline.time position ∧
            (KeepsBars (keptEvents entries) adder event →
              start = level.timeline.time (level.timeline.beatOf event)) := by
  obtain ⟨enabled, log, after, rows, run, rfl⟩ := ofMembers_eq_ok_iff.mp decodes
  refine ⟨enabled, log, after, rows, run, rfl, fun k event part found kind start mem => ?_⟩
  have at_k := (run.exists_states_eq.2 k event part found).1
  rw [run.part_eq found (.inr kind)] at mem
  obtain ⟨press, among, rfl⟩ := mem_starts_ofPresses mem
  obtain ⟨j, -, entry⟩ := List.mem_filterMap.mp among
  obtain ⟨adder, earlier, lands⟩ :=
    landsAt_of_entryAt (pairwise_bar_keptEvents entries) at_k kind entry
  refine ⟨adder, earlier, press.position, lands, rfl, fun keeps => ?_⟩
  rw [lands.position_eq]
  show Timeline.time _ (_ + (Timeline.ofEvents (keptEvents entries)).drift adder event) = _
  rw [drift_eq_zero lands.bar_le keeps, add_zero]
  rfl

/-- A beat of the second bar, the first of four beats, and its pulse two bars on, after which bars
get another length again. -/
theorem ofMembers_pulseStarts_steady :
    let whole (name : String) (n : Int) : Text × Value ℚ :=
      (Text.ofString name, .number (.whole n))
    let event (type : String) (more : Value.Members ℚ) : Value ℚ :=
      .object ((Text.ofString "type", .text (Text.ofString type)) :: more)
    let members : Value.Members ℚ := [(Text.ofString "rows", .array [.object [whole "row" 0]])]
    let entries : List (Value ℚ) :=
      [event "SetCrotchetsPerBar" [whole "bar" 2, whole "crotchetsPerBar" 4],
        event "AddFreeTimeBeat" [whole "bar" 2, whole "row" 0, whole "pulse" 5],
        event "PulseFreeTimeBeat" [whole "bar" 4, whole "row" 0],
        event "SetCrotchetsPerBar" [whole "bar" 4, whole "crotchetsPerBar" 3]]
    ∃ level : Level ℚ, Level.ofMembers members entries = .ok level ∧ level.hits = [48 / 5] ∧
      ∃ enabled log after, enabledRows members = .ok enabled ∧
        Placed level.timeline enabled [] (keptEvents entries) log after ∧
        Level.ofPart level.timeline (joined log) = level ∧
        ∀ (k : ℕ) (event : Event ℚ) (part : Part ℚ), log[k]? = some (event, part) →
          event.kind = .pulse → ∀ start ∈ part.starts,
            ∃ adder ∈ (keptEvents entries).take k, ∃ position,
              LandsAt level.timeline enabled adder event position ∧
              start = level.timeline.time position ∧
              (KeepsBars (keptEvents entries) adder event →
                start = level.timeline.time (level.timeline.beatOf event)) := by
  intro whole event members entries
  have decoded : (Level.ofMembers members entries).toOption.map (fun level => level.hits) =
      some [48 / 5] := by
    simp only [Level.ofMembers, keptEvents, Level.ofPart, ascending, Timeline.ofEvents,
      RateTable.ofBars, RateTable.ofTempos, RateTable.ofChanges, RateTable.ofSchedule,
      sortBy_eq_sorted]
    decide +kernel
  cases h : Level.ofMembers members entries with
  | error e => rw [h] at decoded; cases decoded
  | ok level =>
    rw [h] at decoded
    exact ⟨level, rfl, Option.some.inj decoded, ofMembers_pulseStarts h⟩

/-- From the second bar on, bars have four beats instead of eight. A pulse in the third bar meets a
beat of the first bar at the sixteenth beat, where that bar would be if nothing had changed, and not
at the twelfth. -/
theorem ofMembers_pulseStarts_drifting :
    let whole (name : String) (n : Int) : Text × Value ℚ :=
      (Text.ofString name, .number (.whole n))
    let event (type : String) (more : Value.Members ℚ) : Event ℚ :=
      (Text.ofString "type", .text (Text.ofString type)) :: more
    let members : Value.Members ℚ := [(Text.ofString "rows", .array [.object [whole "row" 0]])]
    let add := event "AddFreeTimeBeat" [whole "row" 0, whole "pulse" 5]
    let set := event "SetCrotchetsPerBar" [whole "bar" 2, whole "crotchetsPerBar" 4]
    let pulse := event "PulseFreeTimeBeat" [whole "bar" 3, whole "row" 0]
    let entries : List (Value ℚ) := [.object add, .object set, .object pulse]
    ∃ level : Level ℚ, Level.ofMembers members entries = .ok level ∧
      ∃ enabled log after, enabledRows members = .ok enabled ∧
        Placed level.timeline enabled [] (keptEvents entries) log after ∧
        Level.ofPart level.timeline (joined log) = level ∧
        pulse.kind = .pulse ∧ level.timeline.time (level.timeline.beatOf pulse) = 36 / 5 ∧
        ∃ part, log[2]? = some (pulse, part) ∧ part.starts = [48 / 5] := by
  intro whole event members add set pulse entries
  have byBar : [add, set, pulse].Pairwise fun a b => b.bar.less a.bar = false := by
    decide +kernel
  have kept : keptEvents entries = [add, set, pulse] :=
    congrArg (List.filter fun event : Event ℚ => !event.isConditional) (sortBy_of_pairwise byBar)
  have isOk : (Level.ofMembers members entries).isOk = true := by
    simp only [Level.ofMembers, kept, Level.ofPart, ascending, Timeline.ofEvents,
      RateTable.ofBars, RateTable.ofTempos, RateTable.ofChanges, RateTable.ofSchedule,
      sortBy_eq_sorted]
    decide +kernel
  cases h : Level.ofMembers members entries with
  | error e => rw [h] at isOk; cases isOk
  | ok level =>
    obtain ⟨enabled, log, after, rows, run, rfl⟩ := ofMembers_eq_ok_iff.mp h
    obtain rfl : [.number (.whole 0)] = enabled := Except.ok.inj rows
    refine ⟨_, rfl, _, log, after, rows, run, rfl, by decide, ?_, ?_⟩
    · show (Timeline.ofEvents (keptEvents entries)).time
        ((Timeline.ofEvents (keptEvents entries)).beatOf pulse) = 36 / 5
      simp only [kept, Timeline.ofEvents, RateTable.ofBars, RateTable.ofTempos, RateTable.ofChanges,
        RateTable.ofSchedule, sortBy_eq_sorted]
      decide +kernel
    · rw [kept] at run
      -- Each event is placed in the state that the one before it has left.
      have lands : ((add.place (.ofEvents [add, set, pulse]) [.number (.whole 0)] []).bind
          fun added => (set.place (.ofEvents [add, set, pulse]) [.number (.whole 0)] added.1).bind
          fun changed =>
            (pulse.place (.ofEvents [add, set, pulse]) [.number (.whole 0)] changed.1).map
          fun pulsed => pulsed.2.starts).toOption = some [48 / 5] := by
        simp only [Timeline.ofEvents, RateTable.ofBars, RateTable.ofTempos, RateTable.ofChanges,
          RateTable.ofSchedule, sortBy_eq_sorted]
        decide +kernel
      cases run with
      | cons first run =>
        cases run with
        | cons second run =>
          cases run with
          | @cons _ _ _ _ part _ _ third run =>
            simp only [first, second, third, Except.bind, Except.map] at lands
            exact ⟨part, rfl, Option.some.inj lands⟩

end CueCheck
