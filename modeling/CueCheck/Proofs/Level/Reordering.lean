import CueCheck.Proofs.Check.Scaling
import CueCheck.Proofs.Level.Lanes
import CueCheck.Proofs.Level.Selection
import Mathlib

/-!
# The listing order of events

The events of a level can be listed in any order, as long as those that meet keep theirs: the events
that set bar lengths, those that set tempos, and the free-time beats and pulses of each row.

- **Orders** (`Reordered`): what a new order of the entries must keep.
- **Sorted lists** (`Cue.precedes_eq_key`, `Hold.precedes_eq_places`): the cues, hits and holds of a
  level are sorted by keys that settle what they are as numbers, unless a time is NaN.
- **The result** (`ofValue_reordered`, `ofText_reordered`): a reordered object decodes to a level
  with the same tables and the same cues, beats, hits and holds, of which all but the beats also
  stand in the same order (`Level.SameContents`).
-/

namespace CueCheck

open Scalar (exact less)

/-! ## Orders -/

section Orders

variable {α : Type} [Scalar α]

/-- A free-time beat or a pulse on a row. -/
def Event.isFreeTimeIn (row : Name α) (event : Event α) : Bool :=
  (event.kind == .freeTime || event.kind == .pulse) &&
    match rowName event with
    | .ok name => name.same row
    | .error _ => false

/-- The same entries in another order, in which the events that set bar lengths, those that set
tempos and the free-time beats and pulses of each row stand as before. -/
structure Reordered (entries others : List (Value α)) : Prop where
  perm : entries.Perm others
  bars : entries.filter (Value.isEventThat Event.setsBars) =
    others.filter (Value.isEventThat Event.setsBars)
  tempos : entries.filter (Value.isEventThat Event.setsTempo) =
    others.filter (Value.isEventThat Event.setsTempo)
  rows : ∀ row, entries.filter (Value.isEventThat (Event.isFreeTimeIn row)) =
    others.filter (Value.isEventThat (Event.isFreeTimeIn row))

theorem takesEffect_congr {entries others : List (Value α)} {p q : Event α → Bool}
    (h : entries.filter (Value.isEventThat p) = others.filter (Value.isEventThat p))
    (hq : ∀ entry ∈ entries, entry.isEventThat q = entry.isEventThat p)
    (hq' : ∀ entry ∈ others, entry.isEventThat q = entry.isEventThat p) :
    entries.filter (Value.isEventThat (Event.takesEffect q)) =
      others.filter (Value.isEventThat (Event.takesEffect q)) := by
  have split (entries : List (Value α)) :
      entries.filter (Value.isEventThat (Event.takesEffect q)) =
        (entries.filter (Value.isEventThat q)).filter
          (Value.isEventThat fun event => !event.isConditional && event.isActive) := by
    rw [List.filter_filter]
    refine List.filter_congr fun entry _ => ?_
    cases entry with
    | object event =>
      simp only [Value.isEventThat, Event.takesEffect]
      ac_rfl
    | _ => rfl
  rw [split, split, List.filter_congr hq, List.filter_congr hq', h]

end Orders

namespace Reordered

variable {entries others : List (Value Float)}

theorem timeline_eq (h : Reordered entries others)
    (numbers : ∀ entry ∈ entries, entry.AllNumbers Number.IsNumber)
    (numbers' : ∀ entry ∈ others, entry.AllNumbers Number.IsNumber) :
    Timeline.ofEvents (keptEvents entries) = Timeline.ofEvents (keptEvents others) :=
  ofEvents_congr
    (filter_keptEvents_congr numbers numbers'
      (takesEffect_congr h.bars (fun _ _ => rfl) fun _ _ => rfl))
    (filter_keptEvents_congr numbers numbers'
      (takesEffect_congr h.tempos (fun _ _ => rfl) fun _ _ => rfl))

/-- The events of each lane keep their order: its row has a name, or the lane is empty. -/
theorem lanes_eq (h : Reordered entries others)
    (numbers : ∀ entry ∈ entries, entry.AllNumbers Number.IsNumber)
    (numbers' : ∀ entry ∈ others, entry.AllNumbers Number.IsNumber) (k : Reading) :
    (keptEvents entries).filter (·.lane = some k) =
      (keptEvents others).filter (·.lane = some k) := by
  refine filter_keptEvents_congr numbers numbers' ?_
  by_cases exists_row : ∃ event : Event Float, .object event ∈ entries ∧ event.lane = some k
  · obtain ⟨event, mem, lane⟩ := exists_row
    obtain ⟨-, row, named, reads⟩ := lane_eq_some_iff.mp lane
    have sane := notNaN_rowName (numbers _ mem) named
    have agree (entry : Value Float) (number : entry.AllNumbers Number.IsNumber) :
        entry.isEventThat (fun event => event.lane = some k) =
          entry.isEventThat (Event.isFreeTimeIn row) := by
      cases entry with
      | object other =>
        rw [Value.isEventThat, Value.isEventThat, Bool.eq_iff_iff, decide_eq_true_iff,
          lane_eq_some_iff, Event.isFreeTimeIn]
        cases named' : rowName other with
        | error e => simp
        | ok name =>
          simp [Name.same_eq_reading (notNaN_rowName number named') sane, reads]
      | _ => rfl
    exact takesEffect_congr (h.rows row) (fun entry mem => agree entry (numbers entry mem))
      fun entry mem => agree entry (numbers' entry mem)
  · have empty (entries' : List (Value Float)) (sub : ∀ entry ∈ entries', entry ∈ entries) :
        entries'.filter (Value.isEventThat
          (Event.takesEffect fun event : Event Float => decide (event.lane = some k))) = [] := by
      refine List.filter_eq_nil_iff.mpr fun entry mem => ?_
      cases entry with
      | object members =>
        have apart : Event.lane members ≠ some k := fun lane =>
          exists_row ⟨members, sub _ mem, lane⟩
        simp [Value.isEventThat, Event.takesEffect, apart]
      | _ => exact Bool.false_ne_true
    rw [empty entries fun _ mem => mem, empty others fun _ mem => h.perm.mem_iff.mpr mem]

end Reordered

/-! ## Sorted lists -/

section Sorted

/-- What cues are sorted by. -/
def Cue.key (cue : Cue Float) : Place ×ₗ ℕ ×ₗ ℤ ×ₗ ℕ :=
  toLex ((exact cue.time).place,
    toLex (cue.kind.rank, toLex (cue.kind.count, Voice.all.idxOf cue.voice)))

/-- What holds are sorted by. -/
def Hold.places (hold : Hold Float) : Place ×ₗ Place :=
  toLex ((exact hold.hit).place, (exact hold.release).place)

theorem beq_eq_place {x y : Float} (hx : exact x ≠ .nan) (hy : exact y ≠ .nan) :
    (x == y) = decide ((exact x).place = (exact y).place) := by
  rw [Binary64.beq_eq_exact hx hy, decide_eq_decide]
  exact Extended.place_injective.eq_iff.symm

theorem Cue.precedes_eq_key {a b : Cue Float} (ha : exact a.time ≠ .nan)
    (hb : exact b.time ≠ .nan) : a.precedes b = decide (a.key < b.key) := by
  unfold Cue.precedes Cue.key
  rw [beq_eq_place ha hb, Binary64.less_eq_place ha hb, Bool.eq_iff_iff,
    decide_eq_true_iff (p := toLex _ < toLex _), Prod.Lex.toLex_lt_toLex, Prod.Lex.toLex_lt_toLex,
    Prod.Lex.toLex_lt_toLex]
  by_cases time : (exact a.time).place = (exact b.time).place
  · by_cases rank : a.kind.rank = b.kind.rank
    · by_cases count : a.kind.count = b.kind.count <;> simp [time, rank, count]
    · simp [time, rank]
  · simp [time]

theorem Hold.precedes_eq_places {a b : Hold Float} (hah : exact a.hit ≠ .nan)
    (har : exact a.release ≠ .nan) (hbh : exact b.hit ≠ .nan) (hbr : exact b.release ≠ .nan) :
    a.precedes b = decide (a.places < b.places) := by
  unfold Hold.precedes Hold.places
  rw [beq_eq_place hah hbh, Binary64.less_eq_place hah hbh, Binary64.less_eq_place har hbr,
    Bool.eq_iff_iff, decide_eq_true_iff (p := toLex _ < toLex _), Prod.Lex.toLex_lt_toLex]
  by_cases hit : (exact a.hit).place = (exact b.hit).place <;> simp [hit]

/-- A kind of cue is settled by its place among the kinds and its count. -/
theorem kind_eq_of_rank_eq {a b : CueKind} (rank : a.rank = b.rank) (count : a.count = b.count) :
    a = b := by
  cases a <;> cases b <;> first | rfl | exact congrArg CueKind.pulse count | cases rank

/-- Cues of known voices with one key are the same as numbers. -/
theorem Cue.map_eq_of_key_eq {a b : Cue Float} (ha : a.voice ∈ Voice.all) (h : a.key = b.key) :
    a.map exact = b.map exact := by
  unfold key at h
  simp only [toLex_inj, Prod.mk.injEq] at h
  obtain ⟨time, rank, count, voice⟩ := h
  unfold map
  rw [Extended.place_injective time, kind_eq_of_rank_eq rank count, (List.idxOf_inj ha).mp voice]

theorem Hold.map_eq_of_places_eq {a b : Hold Float} (h : a.places = b.places) :
    a.map exact = b.map exact := by
  unfold places at h
  simp only [toLex_inj, Prod.mk.injEq] at h
  unfold map
  rw [Extended.place_injective h.1, Extended.place_injective h.2]

variable {cues cues' : List (Cue Float)} {hits hits' : List Float}
  {holds holds' : List (Hold Float)}

theorem map_exact_cues_of_perm (hp : cues.Perm cues')
    (numbers : ∀ cue ∈ cues, exact cue.time ≠ .nan) (voices : ∀ cue ∈ cues, cue.voice ∈ Voice.all) :
    (sortBy Cue.precedes cues).map (Cue.map exact) =
      (sortBy Cue.precedes cues').map (Cue.map exact) :=
  map_sortBy_of_perm hp
    (fun a ha b hb => Cue.precedes_eq_key (numbers a ha) (numbers b hb))
    fun a ha _ _ => Cue.map_eq_of_key_eq (voices a ha)

theorem map_exact_hits_of_perm (hp : hits.Perm hits') (numbers : ∀ t ∈ hits, exact t ≠ .nan) :
    (ascending hits).map exact = (ascending hits').map exact :=
  have sorts : SortsByKey less (fun t => (exact t).place) hits :=
    fun a ha b hb => Binary64.less_eq_place (numbers a ha) (numbers b hb)
  map_sortBy_of_perm hp sorts fun _ _ _ _ same => Extended.place_injective same

theorem map_exact_holds_of_perm (hp : holds.Perm holds')
    (numbers : ∀ hold ∈ holds, exact hold.hit ≠ .nan ∧ exact hold.release ≠ .nan) :
    (sortBy Hold.precedes holds).map (Hold.map exact) =
      (sortBy Hold.precedes holds').map (Hold.map exact) :=
  map_sortBy_of_perm hp
    (fun a ha b hb => Hold.precedes_eq_places (numbers a ha).1 (numbers a ha).2 (numbers b hb).1
      (numbers b hb).2)
    fun _ _ _ _ => Hold.map_eq_of_places_eq

end Sorted

/-! ## The result -/

/-- No time of the cues, hits and holds of a level is NaN. This is asked of the times of the level.
They can be NaN even where all numbers of its text are finite: one that overflows to infinity may be
taken from another. -/
structure Level.HasNumbers (level : Level Float) : Prop where
  cues : ∀ cue ∈ level.cues, exact cue.time ≠ .nan
  hits : ∀ t ∈ level.hits, exact t ≠ .nan
  holds : ∀ hold ∈ level.holds, exact hold.hit ≠ .nan ∧ exact hold.release ≠ .nan

instance (level : Level Float) : Decidable level.HasNumbers :=
  decidable_of_iff
    ((∀ cue ∈ level.cues, exact cue.time ≠ .nan) ∧ (∀ t ∈ level.hits, exact t ≠ .nan) ∧
      ∀ hold ∈ level.holds, exact hold.hit ≠ .nan ∧ exact hold.release ≠ .nan)
    ⟨fun ⟨cues, hits, holds⟩ => ⟨cues, hits, holds⟩, fun ⟨cues, hits, holds⟩ => ⟨cues, hits, holds⟩⟩

section Level

variable {members : Value.Members Float} {entries others : List (Value Float)}
  {level : Level Float}

/-- Runs that add the same in some order add the same contents. -/
theorem joined_perm {trace trace' : List (Event Float × Part Float)} (hp : trace.Perm trace') :
    (joined trace).cues.Perm (joined trace').cues ∧
      (joined trace).beats.Perm (joined trace').beats ∧
      (joined trace).hits.Perm (joined trace').hits ∧
      (joined trace).holds.Perm (joined trace').holds := by
  simp only [cues_joined, beats_joined, hits_joined, holds_joined]
  exact ⟨hp.flatMap_right _, hp.flatMap_right _, hp.flatMap_right _, hp.flatMap_right _⟩

/-- Two levels have the same tables and the same contents, and if the times of the first are
numbers, the cues, hits and holds are in the same order. -/
structure Level.SameContents (level other : Level Float) : Prop where
  bars : level.bars = other.bars
  tempos : level.tempos = other.tempos
  cues : level.cues.Perm other.cues
  beats : level.beats.Perm other.beats
  hits : level.hits.Perm other.hits
  holds : level.holds.Perm other.holds
  ordered : level.HasNumbers →
    level.cues.map (Cue.map exact) = other.cues.map (Cue.map exact) ∧
      level.hits.map exact = other.hits.map exact ∧
      level.holds.map (Hold.map exact) = other.holds.map (Hold.map exact)

/-- Runs that add the same in some order, of cues of known voices, make levels of the same
contents. -/
theorem sameContents_ofPart {timeline : Timeline Float}
    {trace trace' : List (Event Float × Part Float)}
    (hp : trace.Perm trace') (voices : ∀ cue ∈ (joined trace).cues, cue.voice ∈ Voice.all) :
    (Level.ofPart timeline (joined trace)).SameContents (.ofPart timeline (joined trace')) := by
  obtain ⟨cues, beats, hits, holds⟩ := joined_perm hp
  refine ⟨rfl, rfl, sortBy_congr_perm cues, sortBy_congr_perm beats, sortBy_congr_perm hits,
    sortBy_congr_perm holds, fun times => ⟨?_, ?_, ?_⟩⟩
  · exact map_exact_cues_of_perm cues (fun cue mem => times.cues cue (mem_sortBy.mpr mem)) voices
  · exact map_exact_hits_of_perm hits fun t mem => times.hits t (mem_sortBy.mpr mem)
  · exact map_exact_holds_of_perm holds fun hold mem => times.holds hold (mem_sortBy.mpr mem)

/-- A list of events can be given in any order in which bar lengths, tempos and the free-time beats
and pulses of each row stand as before. -/
theorem ofMembers_reordered (numbers : ∀ entry ∈ entries, entry.AllNumbers Number.IsNumber)
    (decodes : Level.ofMembers members entries = .ok level) (reordered : Reordered entries others) :
    ∃ other, Level.ofMembers (Value.withEvents members others) others = .ok other ∧
      level.SameContents other := by
  have numbers' : ∀ entry ∈ others, entry.AllNumbers Number.IsNumber :=
    fun entry mem => numbers entry (reordered.perm.mem_iff.mpr mem)
  have timeline := reordered.timeline_eq numbers numbers'
  obtain ⟨enabled, trace, after, rows, run, rfl⟩ := ofMembers_eq_ok_iff.mp decodes
  obtain ⟨trace', after', run', hp⟩ := run.perm (keptEvents_perm reordered.perm)
    (fun event mem => numbers _ (mem_keptEvents.mp mem).1) (reordered.lanes_eq numbers numbers')
  refine ⟨.ofPart (.ofEvents (keptEvents entries)) (joined trace'), ?_, sameContents_ofPart hp ?_⟩
  · refine ofMembers_eq_ok_iff.mpr
      ⟨enabled, trace', after', (enabledRows_withEvents _ _).trans rows, ?_, ?_⟩
    · rw [← timeline]
      exact run'
    · rw [timeline]
  · rw [cues_joined]
    exact run.voices

/-- The events of a level object can be listed in any order in which bar lengths, tempos and the
free-time beats and pulses of each row stand as before. The level has the same tables and the same
contents, and if its times are numbers, the cues, hits and holds are in the same order. No text
decodes to an object with a number that is NaN (`isNumber_decode`), so of the numbers of texts
nothing is asked (`ofText_reordered`). -/
theorem ofValue_reordered
    (numbers : (Value.object members).AllNumbers Number.IsNumber)
    (events : Value.get members "events" = .array entries)
    (decodes : Level.ofValue (.object members) = .ok level)
    (reordered : Reordered entries others) :
    ∃ other, Level.ofValue (.object (Value.withEvents members others)) = .ok other ∧
      (level.bars = other.bars ∧ level.tempos = other.tempos) ∧
      (level.cues.Perm other.cues ∧ level.beats.Perm other.beats ∧ level.hits.Perm other.hits ∧
        level.holds.Perm other.holds) ∧
      (level.HasNumbers →
        level.cues.map (Cue.map exact) = other.cues.map (Cue.map exact) ∧
          level.hits.map exact = other.hits.map exact ∧
          level.holds.map (Hold.map exact) = other.holds.map (Hold.map exact)) := by
  rw [ofValue_eq_ofMembers events] at decodes
  obtain ⟨other, decodes', same⟩ :=
    ofMembers_reordered (Value.allNumbers_of_get numbers events) decodes reordered
  refine ⟨other, ?_, ⟨same.bars, same.tempos⟩, ⟨same.cues, same.beats, same.hits, same.holds⟩,
    same.ordered⟩
  rw [ofValue_eq_ofMembers (get_withEvents _ _)]
  exact decodes'

/-- A song, a free-time beat with its pulse and a classic beat, listed in another order. -/
theorem ofValue_reordered_song :
    let type (name : String) : Text × Value Float :=
      (Text.ofString "type", .text (Text.ofString name))
    let row : Text × Value Float := (Text.ofString "row", .number (.whole 0))
    let song : Value Float := .object [type "PlaySong"]
    let free : Value Float :=
      .object [type "AddFreeTimeBeat", row, (Text.ofString "pulse", .number (.whole 5))]
    let pulse : Value Float :=
      .object [type "PulseFreeTimeBeat", row, (Text.ofString "bar", .number (.whole 2))]
    let beat : Value Float := .object [type "AddClassicBeat", row]
    let members : Value.Members Float :=
      [(Text.ofString "rows", .array [.object [row]]),
        (Text.ofString "events", .array [song, free, beat, pulse])]
    ∃ level other : Level Float, Level.ofValue (.object members) = .ok level ∧
      Level.ofValue (.object (Value.withEvents members [beat, free, pulse, song])) = .ok other ∧
      level.hits.map exact = other.hits.map exact := by
  intro type row song free pulse beat members
  have decodes : (match Level.ofValue (.object members) with
      | .ok level => decide level.HasNumbers
      | .error _ => false) = true := by
    simp only [Level.ofValue, Level.ofMembers, keptEvents, Level.ofPart, ascending,
      Timeline.ofEvents, RateTable.ofBars, RateTable.ofTempos, RateTable.ofChanges,
      RateTable.ofSchedule, sortBy_eq_sorted]
    decide +kernel
  have numbers : (Value.object members).AllNumbers Number.IsNumber := by
    simp [members, type, row, song, free, pulse, beat, Number.IsNumber, Number.exact]
  have reordered : Reordered [song, free, beat, pulse] [beat, free, pulse, song] :=
    { perm := (@List.perm_append_comm _ [song] _).trans (.swap beat free [pulse, song])
      bars := rfl
      tempos := rfl
      rows := fun _ => rfl }
  cases h : Level.ofValue (.object members) with
  | error e => rw [h] at decodes; cases decodes
  | ok level =>
    rw [h] at decodes
    obtain ⟨other, decodes', -, -, same⟩ := ofValue_reordered numbers rfl h reordered
    exact ⟨level, other, rfl, decodes', (same (of_decide_eq_true decodes)).2.1⟩

/-- Texts that list their events in such orders are decoded to levels of the same contents. -/
theorem ofText_reordered {text text' : List Char} (object : LevelText.decode text = .object members)
    (events : Value.get members "events" = .array entries) (decodes : Level.ofText text = .ok level)
    (reordered : Reordered entries others)
    (listed : LevelText.decode text' = .object (Value.withEvents members others)) :
    ∃ other, Level.ofText text' = .ok other ∧ level.SameContents other := by
  have numbers := Value.allNumbers_of_get (object ▸ LevelText.isNumber_decode text) events
  rw [ofText_eq_ofMembers object events] at decodes
  rw [ofText_eq_ofMembers listed (get_withEvents _ _)]
  exact ofMembers_reordered numbers decodes reordered

end Level

end CueCheck
