import CueCheck.Proofs.Level.Placement
import CueCheck.Scalar.Binary64

/-!
# When a level text decodes to no level

A text without a list of events has no level. One that has such a list has a level unless its rows
or its events use a value that cannot stand where it stands.

- **Counts** (`truncate_eq_error_iff`): only what is not finite has no integer part.
- **Rows** (`enabledRows_eq_error_iff`): rows that are set to a number or to true have no entries,
  and a row that sounds must have a name.
- **Events** (`Event.Fails`, `place_eq_error_iff`): what keeps an event from being placed, where
  some free-time beats wait.
- **The result** (`ofText_outcome`): the cause of a failure, for every text.
-/

namespace CueCheck

variable {α : Type} [Scalar α]

/-! ## Counts -/

/-- Why a number has no integer part, if it has none. -/
def Number.LacksInteger (n : Number α) : NotIntegral → Prop
  | .nan => n.exact = .nan
  | .infinite => ∃ negative, n.exact = .infinite negative

theorem truncate_eq_error_iff {n : Number α} {why : NotIntegral} :
    n.truncate = .error why ↔ n.LacksInteger why := by
  cases n with
  | whole n => cases why <;> simp [Number.truncate, Number.LacksInteger, Number.exact]
  | real x =>
    cases hx : Scalar.exact x <;> cases why <;>
      simp [Number.truncate, Scalar.truncate, Scalar.finiteValue, Number.LacksInteger,
        Number.exact, hx, bind, Except.bind, pure, Except.pure]

/-! ## Names -/

namespace Value

/-- An array or an object. Neither can name anything. -/
def IsCompound : Value α → Prop
  | .array _ | .object _ => True
  | _ => False

omit [Scalar α] in
theorem name_eq_error_iff {value : Value α} {e : LevelError} :
    value.name = .error e ↔ value.IsCompound ∧ e = .compoundName := by
  cases value <;> simp [name, IsCompound, eq_comm]

end Value

theorem nameOr_eq_error_iff {value : Value α} {default : String} {e : LevelError} :
    Part.nameOr value default = .error e ↔
      (value.isTruthy = true ∧ value.IsCompound) ∧ e = .compoundName := by
  unfold Part.nameOr
  cases value.isTruthy <;> simp [Value.name_eq_error_iff]

/-! ## Rows -/

/-- A traversal that can fail in one way only fails exactly if it does so at some entry. -/
theorem mapM_eq_error_iff {β γ ε : Type} {f : β → Except ε γ} {cause : ε} {xs : List β}
    (only : ∀ x e, f x = .error e → e = cause) {e : ε} :
    xs.mapM f = .error e ↔ (∃ x ∈ xs, f x = .error cause) ∧ e = cause := by
  induction xs with
  | nil => simp [pure, Except.pure]
  | cons x xs ih =>
    rw [List.mapM_cons]
    cases hx : f x with
    | error e' =>
      cases only x e' hx
      simp [bind, Except.bind, hx, eq_comm]
    | ok y =>
      have later : (∃ z ∈ x :: xs, f z = .error cause) ↔ ∃ z ∈ xs, f z = .error cause := by
        simp [hx]
      rw [later, ← ih]
      cases hs : xs.mapM f <;> simp [bind, Except.bind, pure, Except.pure]

/-- What the rows of a level object may be at fault for. -/
inductive RowsFail (members : Value.Members α) : LevelError → Prop
  | noEntries (set : (Value.get members "rows").isTruthy = true)
      (plain : (∃ b, Value.get members "rows" = .bool b) ∨
        ∃ n, Value.get members "rows" = .number n) : RowsFail members .rowsWithoutEntries
  | unnamed {entries : List (Value α)} {row : Value.Members α}
      (rows : Value.get members "rows" = .array entries) (entry : .object row ∈ entries)
      (sounds : Value.hasTruthy row "muteBeats" = false)
      (compound : (Value.get row "row").IsCompound) : RowsFail members .compoundName

theorem rowEntries_eq_error_iff {members : Value.Members α} {e : LevelError} :
    rowEntries members = .error e ↔
      ((Value.get members "rows").isTruthy = true ∧
        ((∃ b, Value.get members "rows" = .bool b) ∨
          ∃ n, Value.get members "rows" = .number n)) ∧ e = .rowsWithoutEntries := by
  unfold rowEntries
  cases hr : Value.get members "rows" with
  | null => simp [Value.isTruthy]
  | bool b => cases b <;> simp [Value.isTruthy, eq_comm]
  | number n => cases hz : n.isZero <;> simp [Value.isTruthy, hz, eq_comm]
  | text t => cases t <;> simp [Value.isTruthy]
  | array entries => cases entries <;> simp [Value.isTruthy]
  | object members => cases members <;> simp [Value.isTruthy]

/-- Entries come from an array only. -/
theorem rowEntries_eq_ok_iff {members : Value.Members α} {entry : Value α}
    {entries : List (Value α)} (h : entry ∈ entries) :
    rowEntries members = .ok entries ↔ Value.get members "rows" = .array entries := by
  obtain ⟨first, others, rfl⟩ := List.exists_cons_of_ne_nil (List.ne_nil_of_mem h)
  unfold rowEntries
  cases hr : Value.get members "rows" with
  | null => simp [Value.isTruthy]
  | bool b => cases b <;> simp [Value.isTruthy]
  | number n => cases hz : n.isZero <;> simp [Value.isTruthy, hz]
  | text t => cases t <;> simp [Value.isTruthy]
  | array entries => cases entries <;> simp [Value.isTruthy]
  | object members => cases members <;> simp [Value.isTruthy]

theorem enabledRows_eq_error_iff {members : Value.Members α} {e : LevelError} :
    enabledRows members = .error e ↔ RowsFail members e := by
  have only (row : Value.Members α) (e : LevelError) (h : rowName row = .error e) :
      e = .compoundName := (Value.name_eq_error_iff.mp h).2
  have steps : enabledRows members = (rowEntries members).bind fun entries =>
      ((entries.filterMap Value.members?).filter fun row =>
        !Value.hasTruthy row "muteBeats").mapM rowName := rfl
  rw [steps, bind_eq_error_iff]
  simp only [mapM_eq_error_iff only]
  constructor
  · rintro (none | ⟨entries, rows, ⟨row, mem, unnamed⟩, rfl⟩)
    · obtain ⟨⟨set, plain⟩, rfl⟩ := rowEntries_eq_error_iff.mp none
      exact .noEntries set plain
    · obtain ⟨hentry, sounds⟩ := List.mem_filter.mp mem
      obtain ⟨entry, mem, his⟩ := List.mem_filterMap.mp hentry
      cases entry with
      | object members =>
        cases his
        exact .unnamed ((rowEntries_eq_ok_iff mem).mp rows) mem (by simpa using sounds)
          (Value.name_eq_error_iff.mp unnamed).1
      | _ => cases his
  · intro h
    cases h with
    | noEntries set plain => exact .inl (rowEntries_eq_error_iff.mpr ⟨⟨set, plain⟩, rfl⟩)
    | @unnamed entries row rows entry sounds compound =>
      refine .inr ⟨entries, (rowEntries_eq_ok_iff entry).mpr rows, ⟨row, ?_, ?_⟩, rfl⟩
      · exact List.mem_filter.mpr ⟨List.mem_filterMap.mpr ⟨_, entry, rfl⟩, by simp [sounds]⟩
      · exact Value.name_eq_error_iff.mpr ⟨compound, rfl⟩

/-! ## Events -/

/-- What keeps an event from being placed, where free-time beats wait. -/
inductive Event.Fails (timeline : Timeline α) (enabled : List (Name α)) (waiting : Waiting α)
    (event : Event α) : LevelError → Prop
  /-- No phrase has a compound name. -/
  | phrase (kind : event.kind = .phrase)
      (set : (Value.get event "phraseToSay").isTruthy = true)
      (compound : (Value.get event "phraseToSay").IsCompound) :
      Fails timeline enabled waiting event .compoundName
  /-- Nor has a voice, if there is something for it to say. -/
  | voice {phrase : Text} {parts : List (Option CueKind)} (kind : event.kind = .phrase)
      (named : Part.nameOr (Value.get event "phraseToSay") defaultPhrase = .ok (.text phrase))
      (known : phrase? phrase = some parts)
      (set : (Value.get event "voiceSource").isTruthy = true)
      (compound : (Value.get event "voiceSource").IsCompound) :
      Fails timeline enabled waiting event .compoundName
  /-- Nor a row, for any event that stands in one. -/
  | row (stands : event.standsInRow = true) (compound : (Value.get event "row").IsCompound) :
      Fails timeline enabled waiting event .compoundName
  /-- A oneshot is not repeated without end. -/
  | loops {row : Name α} {why : NotIntegral} (kind : event.kind = .oneshot)
      (named : rowName event = .ok row) (sounds : row.isIn enabled = true)
      (lacks : (Value.getNumber event "loops" (.whole 0)).LacksInteger why) :
      Fails timeline enabled waiting event (.notIntegral why)
  /-- A free-time beat begins at a pulse. -/
  | start {row : Name α} {why : NotIntegral} (kind : event.kind = .freeTime)
      (named : rowName event = .ok row) (sounds : row.isIn enabled = true)
      (lacks : (Value.getNumber event "pulse" (.whole 0)).LacksInteger why) :
      Fails timeline enabled waiting event (.notIntegral why)
  /-- A beat that waits on the row of a custom pulse, and began before it, is set to a pulse. -/
  | custom {row : Name α} {beat : FreeTime α} {why : NotIntegral} (kind : event.kind = .pulse)
      (named : rowName event = .ok row) (sounds : row.isIn enabled = true)
      (waits : beat ∈ waiting) (there : beat.row.same row = true)
      (began : Scalar.less beat.beat (beat.positionOf event) = true)
      (action : (Value.get event "action").isText "Custom" = true)
      (lacks : (Value.getNumber event "customPulse" (.whole 0)).LacksInteger why) :
      Fails timeline enabled waiting event (.notIntegral why)

section Event

variable {timeline : Timeline α} {enabled : List (Name α)} {waiting : Waiting α} {event : Event α}
  {row : Name α} {e : LevelError}

theorem spoken_eq_error_iff :
    Part.spoken timeline event = .error e ↔
      (((Value.get event "phraseToSay").isTruthy = true ∧
          (Value.get event "phraseToSay").IsCompound) ∨
        ∃ phrase parts,
          Part.nameOr (Value.get event "phraseToSay") defaultPhrase = .ok (.text phrase) ∧
            phrase? phrase = some parts ∧ (Value.get event "voiceSource").isTruthy = true ∧
              (Value.get event "voiceSource").IsCompound) ∧ e = .compoundName := by
  have fails {e : LevelError} :=
    @nameOr_eq_error_iff α _ (Value.get event "phraseToSay") defaultPhrase e
  unfold Part.spoken
  cases hp : Part.nameOr (Value.get event "phraseToSay") defaultPhrase with
  | error e' =>
    obtain ⟨compound, rfl⟩ := fails.mp hp
    constructor
    · rintro ⟨⟩
      exact ⟨.inl compound, rfl⟩
    · rintro ⟨-, rfl⟩
      rfl
  | ok name =>
    have plain : ¬((Value.get event "phraseToSay").isTruthy = true ∧
        (Value.get event "phraseToSay").IsCompound) := by
      intro h
      cases hp.symm.trans (fails.mpr ⟨h, rfl⟩)
    cases name with
    | null => simp [bind, Except.bind, pure, Except.pure, plain]
    | number n => simp [bind, Except.bind, pure, Except.pure, plain]
    | text phrase =>
      cases hk : phrase? phrase with
      | none => simp [bind, Except.bind, pure, Except.pure, plain, hk]
      | some parts =>
        have silent := @nameOr_eq_error_iff α _ (Value.get event "voiceSource") "Nurse" e
        cases hv : Part.nameOr (Value.get event "voiceSource") "Nurse" with
        | error e' =>
          rw [hv] at silent
          simpa [bind, Except.bind, plain, hk, hv] using silent
        | ok voice =>
          rw [hv] at silent
          simpa [bind, Except.bind, pure, Except.pure, plain, hk, hv] using silent

theorem ofEvent_eq_error_iff :
    PulseAction.ofEvent event = .error e ↔
      (Value.get event "action").isText "Custom" = true ∧
        ∃ why, (Value.getNumber event "customPulse" (.whole 0)).LacksInteger why ∧
          e = .notIntegral why := by
  have apart {s t : String} (hne : Text.ofString s ≠ Text.ofString t)
      (h : (Value.get event "action").isText s = true) :
      (Value.get event "action").isText t = false := by
    cases ha : Value.get event "action" with
    | text name =>
      rw [ha] at h
      simp only [Value.isText, beq_iff_eq] at h ⊢
      rw [h]
      exact beq_false_of_ne hne
    | _ => rfl
  unfold PulseAction.ofEvent
  simp only
  by_cases custom : (Value.get event "action").isText "Custom" = true
  · rw [apart (by decide) custom, apart (by decide) custom, custom]
    simp only [← truncate_eq_error_iff]
    cases (Value.getNumber event "customPulse" (.whole 0)).truncate <;> simp [eq_comm]
  · simp only [custom]
    split
    · simp
    · split <;> simp

theorem pulse_eq_error_iff {beat : FreeTime α} :
    beat.pulse event = .error e ↔
      Scalar.less beat.beat (beat.positionOf event) = true ∧
        PulseAction.ofEvent event = .error e := by
  unfold FreeTime.pulse
  simp only
  by_cases began : Scalar.less beat.beat (beat.positionOf event) = true
  · rw [if_pos began]
    cases PulseAction.ofEvent event with
    | error e' => simp [began]
    | ok action =>
      cases hn : action.next? beat.count with
      | none => simp [hn]
      | some count => by_cases h : count = Part.hitPulse <;> simp [hn, h]
  · rw [if_neg began]
    simp [began]

/-- A pulse fails exactly if it does so at a beat that waits on its row. -/
theorem pulseAll_eq_error_iff :
    FreeTime.pulseAll timeline row event waiting = .error e ↔
      ∃ beat ∈ waiting, beat.row.same row = true ∧ beat.pulse event = .error e := by
  induction waiting with
  | nil => simp [FreeTime.pulseAll]
  | cons beat others ih =>
    simp only [List.mem_cons, exists_eq_or_imp]
    cases there : beat.row.same row with
    | false =>
      rw [pulseAll_cons_elsewhere there, map_eq_error_iff, ih]
      simp
    | true =>
      rw [pulseAll_cons_there there, bind_eq_error_iff]
      simp only [map_eq_error_iff, ih, true_and]
      constructor
      · rintro (fails | ⟨outcome, -, later⟩)
        · exact .inl fails
        · exact .inr later
      · rintro (fails | ⟨other, mem, same, fails⟩)
        · exact .inl fails
        · cases hp : beat.pulse event with
          | ok outcome => exact .inr ⟨outcome, rfl, other, mem, same, fails⟩
          | error e' =>
            -- All failures of a pulse have the one cause that its event has.
            have asks := (pulse_eq_error_iff.mp fails).2
            rw [(pulse_eq_error_iff.mp hp).2] at asks
            exact .inl (congrArg Except.error (Except.error.inj asks))

theorem oneshot_eq_error_iff :
    Part.oneshot timeline event = .error e ↔
      ∃ why, (Value.getNumber event "loops" (.whole 0)).LacksInteger why ∧
        e = .notIntegral why := by
  rw [oneshot_eq, map_eq_error_iff, Part.Oneshot.ofEvent]
  simp only [← truncate_eq_error_iff]
  cases (Value.getNumber event "loops" (.whole 0)).truncate with
  | error why => simp [eq_comm]
  | ok loops => simp

theorem add_eq_error_iff :
    FreeTime.add timeline row event = .error e ↔
      ∃ why, (Value.getNumber event "pulse" (.whole 0)).LacksInteger why ∧
        e = .notIntegral why := by
  unfold FreeTime.add
  simp only [← truncate_eq_error_iff]
  cases (Value.getNumber event "pulse" (.whole 0)).truncate with
  | error why => simp [eq_comm]
  | ok count => by_cases h : count = Part.hitPulse <;> simp [h]

/-- In an enabled row, an event is not placed exactly if something keeps it from being placed. -/
theorem placeInRow_eq_error_iff (stands : event.standsInRow = true)
    (named : rowName event = .ok row) (sounds : row.isIn enabled = true) :
    event.placeInRow timeline row waiting = .error e ↔
      event.Fails timeline enabled waiting e := by
  constructor
  · intro h
    unfold Event.placeInRow at h
    split at h
    · rename_i kind
      obtain ⟨why, lacks, rfl⟩ := oneshot_eq_error_iff.mp (map_eq_error_iff.mp h)
      exact .loops kind named sounds lacks
    · cases h
    · rename_i kind
      obtain ⟨why, lacks, rfl⟩ := add_eq_error_iff.mp (map_eq_error_iff.mp h)
      exact .start kind named sounds lacks
    · rename_i kind
      obtain ⟨beat, waits, there, pulsed⟩ := pulseAll_eq_error_iff.mp h
      obtain ⟨began, asks⟩ := pulse_eq_error_iff.mp pulsed
      obtain ⟨action, why, lacks, rfl⟩ := ofEvent_eq_error_iff.mp asks
      exact .custom kind named sounds waits there began action lacks
    · cases h
  · intro h
    have own {name : Name α} (h : rowName event = .ok name) : name = row :=
      Except.ok.inj (h.symm.trans named)
    unfold Event.placeInRow
    cases h with
    | phrase kind => cases stands.symm.trans (standsInRow_eq_false_iff.mpr (.inl kind))
    | voice kind => cases stands.symm.trans (standsInRow_eq_false_iff.mpr (.inl kind))
    | row _ compound =>
      cases named.symm.trans (Value.name_eq_error_iff.mpr ⟨compound, rfl⟩)
    | loops kind _ _ lacks =>
      rw [kind]
      exact map_eq_error_iff.mpr (oneshot_eq_error_iff.mpr ⟨_, lacks, rfl⟩)
    | start kind _ _ lacks =>
      rw [kind]
      exact map_eq_error_iff.mpr (add_eq_error_iff.mpr ⟨_, lacks, rfl⟩)
    | custom kind named' _ waits there began action lacks =>
      rw [kind]
      have asks := ofEvent_eq_error_iff.mpr ⟨action, _, lacks, rfl⟩
      rw [own named'] at there
      exact pulseAll_eq_error_iff.mpr ⟨_, waits, there, pulse_eq_error_iff.mpr ⟨began, asks⟩⟩

/-- An event is not placed exactly if something keeps it from being placed. -/
theorem place_eq_error_iff :
    event.place timeline enabled waiting = .error e ↔ event.Fails timeline enabled waiting e := by
  constructor
  · intro h
    cases stands : event.standsInRow with
    | false =>
      rcases standsInRow_eq_false_iff.mp stands with kind | kind
      · rw [place_phrase kind, map_eq_error_iff, spoken_eq_error_iff] at h
        obtain ⟨⟨set, compound⟩ | ⟨_, _, named, known, set, compound⟩, rfl⟩ := h
        · exact .phrase kind set compound
        · exact .voice kind named known set compound
      · rw [place_finish kind] at h
        cases h
    | true =>
      cases named : rowName event with
      | error e' =>
        rw [place_unnamed stands named] at h
        cases h
        obtain ⟨compound, rfl⟩ := Value.name_eq_error_iff.mp named
        exact .row stands compound
      | ok row =>
        cases sounds : row.isIn enabled with
        | false => rw [place_elsewhere stands named sounds] at h; cases h
        | true =>
          rw [place_inRow stands named sounds] at h
          exact (placeInRow_eq_error_iff stands named sounds).mp h
  · intro h
    -- What fails in an enabled row only is left to `placeInRow_eq_error_iff`.
    have inRow {row : Name α} (kind : event.standsInRow = true) (named : rowName event = .ok row)
        (sounds : row.isIn enabled = true) : event.place timeline enabled waiting = .error e := by
      rw [place_inRow kind named sounds]
      exact (placeInRow_eq_error_iff kind named sounds).mpr h
    cases h with
    | phrase kind set compound =>
      rw [place_phrase kind, spoken_eq_error_iff.mpr ⟨.inl ⟨set, compound⟩, rfl⟩]
      rfl
    | voice kind named known set compound =>
      rw [place_phrase kind,
        spoken_eq_error_iff.mpr ⟨.inr ⟨_, _, named, known, set, compound⟩, rfl⟩]
      rfl
    | row stands compound =>
      exact place_unnamed stands (Value.name_eq_error_iff.mpr ⟨compound, rfl⟩)
    | loops kind named sounds => exact inRow (standsInRow_of_kind kind nofun nofun) named sounds
    | start kind named sounds => exact inRow (standsInRow_of_kind kind nofun nofun) named sounds
    | custom kind named sounds => exact inRow (standsInRow_of_kind kind nofun nofun) named sounds

end Event

/-! ## Levels -/

/-- An object with a list of events. -/
def Value.HasEvents (value : Value α) : Prop :=
  ∃ members entries, value = .object members ∧ Value.get members "events" = .array entries

/-- Why an object with the given events decodes to no level. -/
inductive EventsFail (members : Value.Members α) (entries : List (Value α)) : LevelError → Prop
  | rows {e : LevelError} (fails : RowsFail members e) : EventsFail members entries e
  | event {enabled : List (Name α)} {before rest : List (Event α)} {event : Event α}
      {trace : List (Event α × Part α)} {waiting : Waiting α} {e : LevelError}
      (rows : enabledRows members = .ok enabled)
      (split : keptEvents entries = before ++ event :: rest)
      (placed : Placed (.ofEvents (keptEvents entries)) enabled [] before trace waiting)
      (fails : event.Fails (.ofEvents (keptEvents entries)) enabled waiting e) :
      EventsFail members entries e

/-- Why a value decodes to no level. -/
inductive Undecodable : Value α → LevelError → Prop
  | noEvents {value : Value α} (h : ¬value.HasEvents) : Undecodable value .noEvents
  | events {members : Value.Members α} {entries : List (Value α)} {e : LevelError}
      (events : Value.get members "events" = .array entries)
      (fails : EventsFail members entries e) : Undecodable (.object members) e

section Level

variable {members : Value.Members α} {entries : List (Value α)} {value : Value α} {e : LevelError}

theorem ofMembers_eq_error_iff :
    Level.ofMembers members entries = .error e ↔ EventsFail members entries e := by
  rw [ofMembers_eq, bind_eq_error_iff]
  simp only [map_eq_error_iff]
  constructor
  · rintro (fails | ⟨enabled, rows, fails⟩)
    · exact .rows (enabledRows_eq_error_iff.mp fails)
    · obtain ⟨before, event, rest, waiting, trace, split, run, stops⟩ :=
        placeAll_eq_error_iff.mp fails
      exact .event rows split run (place_eq_error_iff.mp stops)
  · intro h
    cases h with
    | rows fails => exact .inl (enabledRows_eq_error_iff.mpr fails)
    | event rows split run fails =>
      exact .inr ⟨_, rows, placeAll_eq_error_iff.mpr
        ⟨_, _, _, _, _, split, run, place_eq_error_iff.mpr fails⟩⟩

/-- An object with events has other faults than to have none. -/
theorem EventsFail.ne_noEvents (h : EventsFail members entries e) : e ≠ .noEvents := by
  cases h with
  | rows fails => cases fails <;> nofun
  | event _ _ _ fails => cases fails <;> nofun

theorem ofValue_of_not_hasEvents (h : ¬value.HasEvents) :
    (Level.ofValue value : Except LevelError (Level α)) = .error .noEvents := by
  unfold Level.ofValue
  split
  · rename_i members
    split
    · rename_i entries events
      exact absurd ⟨members, entries, rfl, events⟩ h
    · rfl
  · rfl

theorem ofValue_eq_error_iff : Level.ofValue value = .error e ↔ Undecodable value e := by
  constructor
  · intro h
    by_cases has : value.HasEvents
    · obtain ⟨members, entries, rfl, events⟩ := has
      rw [ofValue_eq_ofMembers events] at h
      exact .events events (ofMembers_eq_error_iff.mp h)
    · rw [ofValue_of_not_hasEvents has] at h
      cases h
      exact .noEvents has
  · intro h
    cases h with
    | noEvents has => exact ofValue_of_not_hasEvents has
    | events events fails =>
      rw [ofValue_eq_ofMembers events]
      exact ofMembers_eq_error_iff.mpr fails

theorem ofValue_eq_noEvents_iff :
    (Level.ofValue value : Except LevelError (Level α)) = .error .noEvents ↔
      ¬value.HasEvents := by
  rw [ofValue_eq_error_iff]
  constructor
  · intro h
    cases h with
    | noEvents has => exact has
    | events _ fails => exact absurd rfl fails.ne_noEvents
  · exact .noEvents

end Level

/-- Whether a text has failed for a given cause can be seen from the cause. -/
instance {β : Type} (result : Except LevelError β) (e : LevelError) :
    Decidable (result = .error e) :=
  match result with
  | .ok _ => isFalse nofun
  | .error e' => decidable_of_iff (e' = e) ⟨congrArg _, Except.error.inj⟩

/-- Each text decodes to a level or fails, and for which cause. It is said to have no events exactly
if it is no object with a list of events. -/
theorem ofText_outcome (text : List Char) :
    ((Level.ofText text : Except LevelError (Level α)) = .error .noEvents ↔
        ¬(LevelText.decode text : Value α).HasEvents) ∧
      (∀ e, (Level.ofText text : Except LevelError (Level α)) = .error e ↔
        Undecodable (LevelText.decode text : Value α) e) ∧
      ((∃ level : Level α, Level.ofText text = .ok level) ↔
        ∀ e, ¬Undecodable (LevelText.decode text : Value α) e) := by
  unfold Level.ofText
  refine ⟨ofValue_eq_noEvents_iff, fun e => ofValue_eq_error_iff, ?_⟩
  simp only [← ofValue_eq_error_iff]
  cases (Level.ofValue (LevelText.decode text) : Except LevelError (Level α)) <;> simp

/-- Texts that have events and decode to no level all the same: an event in a row that is named by
an array, rows that are a number, and a oneshot that is repeated infinitely often. -/
theorem ofText_fails_with_events :
    (Level.ofText "\x7b\"events\":[\x7b\"type\":\"AddClassicBeat\",\"row\":[0]\x7d]\x7d".toList :
        Except LevelError (Level Float)) = .error .compoundName ∧
      (Level.ofText "\x7b\"rows\":5,\"events\":[]\x7d".toList :
        Except LevelError (Level Float)) = .error .rowsWithoutEntries ∧
      (Level.ofText
          ("\x7b\"rows\":[\x7b\"row\":0\x7d],\"events\":" ++
            "[\x7b\"type\":\"AddOneshotBeat\",\"row\":0,\"loops\":1.0e999\x7d]\x7d").toList :
        Except LevelError (Level Float)) = .error (.notIntegral .infinite) := by
  decide +kernel

end CueCheck
