import CueCheck.Proofs.Level.Placement
import CueCheck.Proofs.Level.Selection
import Mathlib

/-!
# Entries without influence

Some entries of a level's list of events have no influence on the level: what is no object, events
that are off or conditional, and beats and pulses outside the enabled rows. Any of them can be left
out.

- **Entries** (`filter_keptEvents_leavesOut`): what is left out is no event that takes effect and
  counts.
- **Placing** (`placeAll_filter`): an event outside the enabled rows adds nothing and moves no beat
  that waits, so the events around it are placed as they would be without it.
- **The result** (`ofValue_leavesOut`, `ofText_leavesOut`): leaving out ignored entries gives the
  same level.
-/

namespace CueCheck

/-! ## Ignored entries -/

section Ignored

variable {α : Type} [Scalar α]

/-- Beats and pulses, which count only in a row. -/
def EventKind.isBeat : EventKind → Bool
  | .oneshot | .classic | .freeTime | .pulse => true
  | _ => false

/-- An event stands in no enabled row. -/
def Event.isElsewhere (enabled : List (Name α)) (event : Event α) : Bool :=
  match rowName event with
  | .ok row => !row.isIn enabled
  | .error _ => true

/-- An event that counts: it is no beat and no pulse, or stands in an enabled row. -/
def Event.counts (enabled : List (Name α)) (event : Event α) : Bool :=
  !event.kind.isBeat || !event.isElsewhere enabled

/-- An entry of a list of events that has no influence. -/
inductive Ignored (enabled : List (Name α)) : Value α → Prop
  | noObject {entry : Value α} (h : entry.members? = none) : Ignored enabled entry
  | inactive {event : Event α} (h : event.isActive = false) : Ignored enabled (.object event)
  | conditional {event : Event α} (h : event.isConditional = true) :
      Ignored enabled (.object event)
  | elsewhere {event : Event α} (kind : event.kind.isBeat = true)
      (row : event.isElsewhere enabled = true) : Ignored enabled (.object event)

/-- A list without some of its entries, which all meet a condition. -/
inductive LeavesOut {β : Type} (cond : β → Prop) : List β → List β → Prop
  | nil : LeavesOut cond [] []
  | keep {x : β} {xs ys : List β} (h : LeavesOut cond xs ys) : LeavesOut cond (x :: xs) (x :: ys)
  | drop {x : β} {xs ys : List β} (hx : cond x) (h : LeavesOut cond xs ys) :
      LeavesOut cond (x :: xs) ys

namespace LeavesOut

variable {β γ : Type} {cond : β → Prop} {xs ys : List β}

theorem subset (h : LeavesOut cond xs ys) : ys ⊆ xs := by
  induction h with
  | nil => exact List.Subset.refl _
  | keep _ ih => exact List.cons_subset_cons _ ih
  | drop _ _ ih => exact List.Subset.trans ih (List.subset_cons_self _ _)

theorem filter_eq (h : LeavesOut cond xs ys) {p : β → Bool} (hp : ∀ x, cond x → p x = false) :
    xs.filter p = ys.filter p := by
  induction h with
  | nil => rfl
  | keep _ ih => rw [List.filter_cons, List.filter_cons, ih]
  | drop hx _ ih => rw [List.filter_cons_of_neg (Bool.eq_false_iff.mp (hp _ hx)), ih]

end LeavesOut

theorem isEventThat_of_ignored {enabled : List (Name α)} {entry : Value α}
    (h : Ignored enabled entry) :
    entry.isEventThat (Event.takesEffect (Event.counts enabled)) = false := by
  cases h with
  | noObject h =>
    cases entry with
    | object members => cases h
    | _ => rfl
  | inactive h => simp [Value.isEventThat, Event.takesEffect, h]
  | conditional h => simp [Value.isEventThat, Event.takesEffect, h]
  | elsewhere kind row => simp [Value.isEventThat, Event.takesEffect, Event.counts, kind, row]

end Ignored

theorem filter_keptEvents_leavesOut {entries kept : List (Value Float)}
    {enabled : List (Name Float)} (out : LeavesOut (Ignored enabled) entries kept)
    (numbers : ∀ entry ∈ entries, entry.AllNumbers Number.IsNumber) :
    (keptEvents entries).filter (Event.counts enabled) =
      (keptEvents kept).filter (Event.counts enabled) :=
  filter_keptEvents_congr numbers (fun entry mem => numbers entry (out.subset mem))
    (out.filter_eq fun _ => isEventThat_of_ignored)

/-! ## Placing -/

section Place

variable {α : Type} [Scalar α] {timeline : Timeline α} {enabled : List (Name α)}
  {events : List (Event α)} {event : Event α}

/-- Events that add nothing, wherever they stand, can be left out. -/
theorem placeAll_filter {p : Event α → Bool}
    (h : ∀ event ∈ events, p event = false → ∀ waiting,
      event.place timeline enabled waiting = .ok (waiting, .none)) (waiting : Waiting α) :
    placeAll timeline enabled waiting (events.filter p) =
      placeAll timeline enabled waiting events := by
  induction events generalizing waiting with
  | nil => rfl
  | cons event events ih =>
    obtain ⟨first, rest⟩ := List.forall_mem_cons.mp h
    rw [List.filter_cons, placeAll_cons]
    split
    · rw [placeAll_cons]
      simp only [ih rest]
    · rename_i hp
      rw [ih rest, first (Bool.eq_false_iff.mpr hp) waiting]
      simp only [Except.bind, Part.none_append]
      cases placeAll timeline enabled waiting events <;> rfl

/-- A beat or pulse that does not count adds nothing, if its row has a name. -/
theorem place_of_not_counts {state : Waiting α} {result : Waiting α × Part α}
    (placed : event.place timeline enabled state = .ok result)
    (h : event.counts enabled = false) (waiting : Waiting α) :
    event.place timeline enabled waiting = .ok (waiting, .none) := by
  simp only [Event.counts, Bool.or_eq_false_iff, Bool.not_eq_false'] at h
  obtain ⟨kind, row⟩ := h
  have stands : event.standsInRow = true := by
    rw [← Bool.not_eq_false, standsInRow_eq_false_iff]
    rintro (phrase | finish)
    · rw [phrase] at kind
      cases kind
    · rw [finish] at kind
      cases kind
  cases named : rowName event with
  | error e =>
    rw [place_unnamed stands named] at placed
    cases placed
  | ok name =>
    rw [Event.isElsewhere, named] at row
    exact place_elsewhere stands named (by simpa using row)

end Place

/-! ## The level -/

section Level

variable {members : Value.Members Float} {entries kept : List (Value Float)}
  {enabled : List (Name Float)} {level : Level Float}

/-- What sets bar lengths and tempos always counts. -/
theorem timeline_leavesOut (out : LeavesOut (Ignored enabled) entries kept)
    (numbers : ∀ entry ∈ entries, entry.AllNumbers Number.IsNumber) :
    Timeline.ofEvents (keptEvents kept) = Timeline.ofEvents (keptEvents entries) := by
  have setting {sets : Event Float → Bool}
      (h : ∀ event, event.kind.isBeat = true → sets event = false) :
      (keptEvents kept).filter sets = (keptEvents entries).filter sets := by
    have counts : (fun event => sets event && event.counts enabled) = sets := by
      funext event
      cases kind : event.kind.isBeat with
      | true => simp [h event kind]
      | false => simp [Event.counts, kind]
    have within := congrArg (List.filter sets) (filter_keptEvents_leavesOut out numbers)
    rw [List.filter_filter, List.filter_filter, counts] at within
    exact within.symm
  refine ofEvents_congr (setting fun event kind => ?_) (setting fun event kind => ?_)
  · unfold Event.setsBars
    cases hk : event.kind <;> rw [hk] at kind <;> first | rfl | cases kind
  · unfold Event.setsTempo
    cases hk : event.kind <;> rw [hk] at kind <;> first | rfl | cases kind

/-- Leaving out ignored entries of a list of events gives the same level. -/
theorem ofMembers_leavesOut (numbers : ∀ entry ∈ entries, entry.AllNumbers Number.IsNumber)
    (rows : enabledRows members = .ok enabled)
    (decodes : Level.ofMembers members entries = .ok level)
    (out : LeavesOut (Ignored enabled) entries kept) :
    Level.ofMembers (Value.withEvents members kept) kept = .ok level := by
  obtain ⟨enabled', trace, after, rows', placed, rfl⟩ := ofMembers_eq_ok_iff.mp decodes
  obtain rfl : enabled = enabled' := Except.ok.inj (rows.symm.trans rows')
  -- The others add nothing: all of them were placed among the entries.
  have nothing (event : Event Float) (mem : event ∈ keptEvents entries)
      (h : event.counts enabled = false) (waiting : Waiting Float) :
      event.place (.ofEvents (keptEvents entries)) enabled waiting = .ok (waiting, .none) := by
    obtain ⟨state, result, first⟩ := placed.exists_place mem
    exact place_of_not_counts first h waiting
  have among (event : Event Float) (mem : event ∈ keptEvents kept) : event ∈ keptEvents entries :=
    mem_keptEvents.mpr ((mem_keptEvents.mp mem).imp_left fun h => out.subset h)
  have run : placeAll (.ofEvents (keptEvents entries)) enabled [] (keptEvents kept) =
      placeAll (.ofEvents (keptEvents entries)) enabled [] (keptEvents entries) := by
    rw [← placeAll_filter (fun event mem => nothing event (among event mem)),
      ← placeAll_filter nothing, filter_keptEvents_leavesOut out numbers]
  obtain ⟨trace', placed', joins⟩ :=
    placeAll_eq_ok_iff.mp (run.trans (placeAll_eq_ok_iff.mpr ⟨trace, placed, rfl⟩))
  refine ofMembers_eq_ok_iff.mpr
    ⟨enabled, trace', after, (enabledRows_withEvents _ _).trans rows, ?_, ?_⟩
  · rw [timeline_leavesOut out numbers]
    exact placed'
  · rw [timeline_leavesOut out numbers, joins]

/-- Leaving out ignored entries of the events of an object gives the same level. No text decodes to
an object with a number that is NaN (`isNumber_decode`), so of texts nothing is asked
(`ofText_leavesOut`). -/
theorem ofValue_leavesOut
    (numbers : (Value.object members).AllNumbers Number.IsNumber)
    (events : Value.get members "events" = .array entries)
    (rows : enabledRows members = .ok enabled)
    (decodes : Level.ofValue (.object members) = .ok level)
    (out : LeavesOut (Ignored enabled) entries kept) :
    Level.ofValue (.object (Value.withEvents members kept)) = .ok level := by
  rw [ofValue_eq_ofMembers events] at decodes
  rw [ofValue_eq_ofMembers (get_withEvents _ _)]
  exact ofMembers_leavesOut (Value.allNumbers_of_get numbers events) rows decodes out

/-- A beat in a muted row, a song that may not run and an entry that is no object are left out. -/
theorem ofValue_leavesOut_three :
    let row (n : Int) : Text × Value Float := (Text.ofString "row", .number (.whole n))
    let type (name : String) : Text × Value Float :=
      (Text.ofString "type", .text (Text.ofString name))
    let beat (n : Int) : Value Float := .object [type "AddClassicBeat", row n]
    let song : Value Float := .object [type "PlaySong", (Text.ofString "tag", .bool true)]
    let members : Value.Members Float :=
      [(Text.ofString "rows",
          .array [.object [row 0], .object [row 1, (Text.ofString "muteBeats", .bool true)]]),
        (Text.ofString "events", .array [beat 1, song, .null, beat 0])]
    ∃ level, Level.ofValue (.object members) = .ok level ∧
      Level.ofValue (.object (Value.withEvents members [beat 0])) = .ok level := by
  intro row type beat song members
  have decodes : (Level.ofValue (.object members)).isOk = true := by
    simp only [Level.ofValue, Level.ofMembers, keptEvents, sortBy_eq_sorted]
    decide +kernel
  have numbers : (Value.object members).AllNumbers Number.IsNumber := by
    simp [members, row, type, beat, song, Number.IsNumber, Number.exact]
  cases h : Level.ofValue (.object members) with
  | error e => rw [h] at decodes; cases decodes
  | ok level =>
    have rows : enabledRows members = .ok [.number (.whole 0)] := rfl
    refine ⟨level, rfl, ofValue_leavesOut numbers rfl rows h ?_⟩
    refine .drop (.elsewhere (by decide) (by decide +kernel)) ?_
    exact .drop (.conditional rfl) (.drop (.noObject rfl) (.keep .nil))

/-- Texts that differ in ignored entries of their events are decoded to the same level. -/
theorem ofText_leavesOut {text other : List Char} (object : LevelText.decode text = .object members)
    (events : Value.get members "events" = .array entries)
    (rows : enabledRows members = .ok enabled) (decodes : Level.ofText text = .ok level)
    (out : LeavesOut (Ignored enabled) entries kept)
    (without : LevelText.decode other = .object (Value.withEvents members kept)) :
    Level.ofText other = .ok level := by
  have numbers := Value.allNumbers_of_get (object ▸ LevelText.isNumber_decode text) events
  rw [ofText_eq_ofMembers object events] at decodes
  rw [ofText_eq_ofMembers without (get_withEvents _ _)]
  exact ofMembers_leavesOut numbers rows decodes out

end Level

end CueCheck
