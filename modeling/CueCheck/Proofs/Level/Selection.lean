import CueCheck.Level.Decode
import CueCheck.Proofs.Level.Numbers
import CueCheck.Proofs.Sorting.Stable
import Mathlib

/-!
# Selecting events

What some of the events of a level settle can be read off the entries for those events.

- **Entries** (`filter_keptEvents`): it is the same to select events that take effect and to select
  entries, because sorting is stable. So the events selected are settled by the entries selected
  (`filter_keptEvents_congr`).
- **The timeline** (`ofEvents_congr`): it is settled by the events that set bar lengths and by those
  that set tempos.
- **Objects** (`Value.withEvents`): an object with other events has the same rows.
-/

namespace CueCheck

/-! ## Entries -/

section Entries

variable {α : Type} {entries others : List (Value α)} {event : Event α}

/-- The events among entries that are on. -/
def activeEvents (entries : List (Value α)) : List (Event α) :=
  (entries.filterMap Value.members?).filter Event.isActive

/-- An entry is an event with a property. -/
def Value.isEventThat (p : Event α → Bool) : Value α → Bool
  | .object event => p event
  | _ => false

theorem filter_filterMap_members? (entries : List (Value α)) (p : Event α → Bool) :
    (entries.filterMap Value.members?).filter p =
      (entries.filter (Value.isEventThat p)).filterMap Value.members? := by
  rw [List.filter_filterMap, List.filterMap_filter]
  refine List.filterMap_congr fun entry _ => ?_
  cases entry <;> rfl

theorem mem_activeEvents :
    event ∈ activeEvents entries ↔ .object event ∈ entries ∧ event.isActive = true := by
  unfold activeEvents
  rw [List.mem_filter, List.mem_filterMap]
  refine and_congr_left fun _ => ⟨?_, fun mem => ⟨_, mem, rfl⟩⟩
  rintro ⟨entry, mem, his⟩
  cases entry with
  | object members =>
    cases his
    exact mem
  | _ => cases his

variable [Scalar α]

theorem keptEvents_eq (entries : List (Value α)) :
    keptEvents entries =
      (sortBy (fun a b => a.bar.less b.bar) (activeEvents entries)).filter (!·.isConditional) :=
  rfl

theorem mem_keptEvents :
    event ∈ keptEvents entries ↔
      .object event ∈ entries ∧ event.isActive = true ∧ event.isConditional = false := by
  rw [keptEvents_eq, List.mem_filter, mem_sortBy, Bool.not_eq_true', mem_activeEvents, and_assoc]

/-- Reordered entries have the same events, in some order. -/
theorem keptEvents_perm (h : entries.Perm others) :
    (keptEvents entries).Perm (keptEvents others) := by
  rw [keptEvents_eq, keptEvents_eq]
  refine List.Perm.filter _ ((sortBy_perm _ _).trans (.trans ?_ (sortBy_perm _ _).symm))
  exact (h.filterMap _).filter _

end Entries

section Select

variable {entries others : List (Value Float)}

/-- An event that takes effect and has a property. -/
def Event.takesEffect {α : Type} [Scalar α] (p : Event α → Bool) (event : Event α) : Bool :=
  p event && !event.isConditional && event.isActive

theorem filter_keptEvents (numbers : ∀ entry ∈ entries, entry.AllNumbers Number.IsNumber)
    (p : Event Float → Bool) :
    (keptEvents entries).filter p =
      sortBy (fun a b : Event Float => a.bar.less b.bar)
        ((entries.filter (Value.isEventThat (Event.takesEffect p))).filterMap Value.members?) := by
  have sorts : SortsByKey (fun a b : Event Float => a.bar.less b.bar)
      (fun event => event.bar.exact.place) (activeEvents entries) :=
    sortsByKey_bar fun _ mem => numbers _ (mem_activeEvents.mp mem).1
  rw [keptEvents_eq, List.filter_filter, filter_sortBy sorts, activeEvents, List.filter_filter,
    filter_filterMap_members?]
  rfl

/-- Where entries agree on the events with a property that take effect, so do their events. -/
theorem filter_keptEvents_congr (numbers : ∀ entry ∈ entries, entry.AllNumbers Number.IsNumber)
    (numbers' : ∀ entry ∈ others, entry.AllNumbers Number.IsNumber) {p : Event Float → Bool}
    (h : entries.filter (Value.isEventThat (Event.takesEffect p)) =
      others.filter (Value.isEventThat (Event.takesEffect p))) :
    (keptEvents entries).filter p = (keptEvents others).filter p := by
  rw [filter_keptEvents numbers, filter_keptEvents numbers', h]

end Select

/-! ## The timeline -/

section Timeline

variable {α : Type} {events others : List (Event α)}

/-- An event that sets the length of bars. -/
def Event.setsBars (event : Event α) : Bool :=
  event.kind == .barLength

/-- An event that sets a tempo. -/
def Event.setsTempo (event : Event α) : Bool :=
  event.kind == .song || event.kind == .tempo

/-- What gives nothing can be left out. -/
theorem filterMap_filter_of_none {β γ : Type} {p : β → Bool} {f : β → Option γ}
    (h : ∀ x, p x = false → f x = none) (xs : List β) :
    (xs.filter p).filterMap f = xs.filterMap f := by
  rw [List.filterMap_filter]
  refine List.filterMap_congr fun x _ => ?_
  split
  · rfl
  · rename_i hp
    exact (h x (Bool.eq_false_iff.mpr hp)).symm

variable [Scalar α]

theorem barChange?_eq_none {event : Event α} (h : event.setsBars = false) :
    barChange? event = none := by
  unfold Event.setsBars at h
  unfold barChange?
  cases hk : event.kind with
  | barLength => rw [hk] at h; cases h
  | _ => rfl

theorem tempo?_eq_none {event : Event α} (h : event.setsTempo = false) :
    songTempo? event = none ∧ tempo? event = none := by
  unfold Event.setsTempo at h
  unfold tempo? songTempo?
  cases hk : event.kind with
  | song => rw [hk] at h; cases h
  | tempo => rw [hk] at h; cases h
  | _ => exact ⟨rfl, rfl⟩

theorem ofEvents_congr (bars : events.filter Event.setsBars = others.filter Event.setsBars)
    (tempos : events.filter Event.setsTempo = others.filter Event.setsTempo) :
    Timeline.ofEvents events = Timeline.ofEvents others := by
  have changes : events.filterMap barChange? = others.filterMap barChange? := by
    rw [← filterMap_filter_of_none fun _ => barChange?_eq_none, bars,
      filterMap_filter_of_none fun _ => barChange?_eq_none]
  have songs : events.filterMap songTempo? = others.filterMap songTempo? := by
    rw [← filterMap_filter_of_none fun _ h => (tempo?_eq_none h).1, tempos,
      filterMap_filter_of_none fun _ h => (tempo?_eq_none h).1]
  have tempoChanges (table : RateTable α) :
      events.filterMap (tempoChange? table) = others.filterMap (tempoChange? table) := by
    have none (event : Event α) (h : event.setsTempo = false) :
        tempoChange? table event = Option.none := by
      rw [tempoChange?, (tempo?_eq_none h).2]
      rfl
    rw [← filterMap_filter_of_none none, tempos, filterMap_filter_of_none none]
  unfold Timeline.ofEvents initialTempo
  simp only [← List.head?_filterMap, changes, songs, tempoChanges]

end Timeline

/-! ## Objects -/

section Objects

variable {α : Type} (members : Value.Members α) (entries : List (Value α))

/-- A level object with other events. -/
def Value.withEvents : Members α :=
  putMember (Text.ofString "events") (.array entries) members

theorem get_withEvents :
    Value.get (Value.withEvents members entries) "events" = .array entries := by
  rw [Value.get, Value.withEvents, Value.member?_putMember_self]
  rfl

theorem enabledRows_withEvents [Scalar α] :
    enabledRows (Value.withEvents members entries) = enabledRows members := by
  have rows : Value.get (Value.withEvents members entries) "rows" = Value.get members "rows" := by
    unfold Value.get Value.withEvents
    rw [Value.member?_putMember_of_ne (by decide)]
  unfold enabledRows rowEntries
  rw [rows]

end Objects

end CueCheck
