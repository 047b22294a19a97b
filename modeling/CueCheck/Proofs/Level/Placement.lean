import CueCheck.Level.Decode

/-!
# Placing events

What one event does, by its kind, and what a list of events does.

- **Results** (`bind_eq_ok_iff`, `map_eq_ok_iff`): what steps have together is read off the steps.
- **One event** (`Event.Does`, `place_eq_ok_iff`): phrases and the end of a level stand for
  themselves. All other events name a row and do nothing outside the enabled rows.
- **In a row** (`Event.DoesInRow`, `placeInRow_eq_ok_iff`): what such an event does in an enabled
  row, by its kind. A free-time beat is pressed at once or waits (`add_cases`). A pulse leaves a
  beat, moves it, removes it or makes it land (`FreeTime.IsPulsed`, `pulse_eq_ok_iff`), and so it
  goes through all that wait (`FreeTime.PulsesAll`, `pulseAll_eq_ok_iff`).
- **Voices** (`voice_of_place`): only phrases and the end of a level add cues, in voices of the
  level.
- **A run of events** (`Placed`): the events with what each of them adds. `placeAll` has a result
  exactly if there is such a run (`placeAll_eq_ok_iff`), and fails exactly if the run comes to an
  event that fails (`placeAll_eq_error_iff`).
- **A level** (`ofMembers_eq_ok_iff`): it has what a run of its events adds.
-/

namespace CueCheck

/-! ## Results -/

section Result

variable {ε β γ : Type} {x : Except ε β} {e : ε}

theorem bind_eq_ok_iff {f : β → Except ε γ} {c : γ} :
    x.bind f = .ok c ↔ ∃ b, x = .ok b ∧ f b = .ok c := by
  cases x <;> simp [Except.bind]

theorem bind_eq_error_iff {f : β → Except ε γ} :
    x.bind f = .error e ↔ x = .error e ∨ ∃ b, x = .ok b ∧ f b = .error e := by
  cases x <;> simp [Except.bind]

theorem map_eq_ok_iff {f : β → γ} {c : γ} : x.map f = .ok c ↔ ∃ b, x = .ok b ∧ f b = c := by
  cases x <;> simp [Except.map]

theorem map_eq_error_iff {f : β → γ} : x.map f = .error e ↔ x = .error e := by
  cases x <;> simp [Except.map]

end Result

namespace Part

variable {α : Type}

@[simp] theorem cues_append (a b : Part α) : (a ++ b).cues = a.cues ++ b.cues := rfl

@[simp] theorem beats_append (a b : Part α) : (a ++ b).beats = a.beats ++ b.beats := rfl

@[simp] theorem hits_append (a b : Part α) : (a ++ b).hits = a.hits ++ b.hits := rfl

@[simp] theorem holds_append (a b : Part α) : (a ++ b).holds = a.holds ++ b.holds := rfl

@[simp] theorem none_append (a : Part α) : none ++ a = a := rfl

end Part

variable {α : Type} [Scalar α] {timeline : Timeline α} {enabled : List (Name α)}
  {waiting : Waiting α} {event : Event α} {row : Name α}

/-! ## One event -/

/-- An event that is not said or final stands in a row. -/
def Event.standsInRow (event : Event α) : Bool :=
  event.kind != .phrase && event.kind != .finish

/-- What an event adds in an enabled row, and which free-time beats wait after it. -/
def Event.placeInRow (timeline : Timeline α) (row : Name α) (waiting : Waiting α)
    (event : Event α) : Except LevelError (Waiting α × Part α) :=
  match event.kind with
  | .oneshot => (Part.oneshot timeline event).map (waiting, ·)
  | .classic => .ok (waiting, Part.classic timeline event)
  | .freeTime => (FreeTime.add timeline row event).map fun added =>
      (waiting ++ added.1.toList, added.2)
  | .pulse => FreeTime.pulseAll timeline row event waiting
  | _ => .ok (waiting, .none)

omit [Scalar α] in
theorem standsInRow_eq_false_iff :
    event.standsInRow = false ↔ event.kind = .phrase ∨ event.kind = .finish := by
  unfold Event.standsInRow
  cases event.kind <;> simp

omit [Scalar α] in
theorem standsInRow_of_kind {kind : EventKind} (is : event.kind = kind) (phrase : kind ≠ .phrase)
    (finish : kind ≠ .finish) : event.standsInRow = true := by
  rw [← Bool.not_eq_false, standsInRow_eq_false_iff, is]
  exact fun h => h.elim phrase finish

theorem place_phrase (h : event.kind = .phrase) :
    event.place timeline enabled waiting = (Part.spoken timeline event).map (waiting, ·) := by
  unfold Event.place
  rw [h]
  cases Part.spoken timeline event <;> rfl

theorem place_finish (h : event.kind = .finish) :
    event.place timeline enabled waiting = .ok (waiting, Part.finish timeline event) := by
  unfold Event.place
  rw [h]
  rfl

theorem place_of_standsInRow (h : event.standsInRow = true) :
    event.place timeline enabled waiting =
      (rowName event).bind fun row =>
        if row.isIn enabled then event.placeInRow timeline row waiting
        else .ok (waiting, .none) := by
  unfold Event.standsInRow at h
  unfold Event.place Event.placeInRow
  cases rowName event with
  | error e =>
    cases hk : event.kind <;> rw [hk] at h
    case phrase => exact absurd h (by decide)
    case finish => exact absurd h (by decide)
    all_goals rfl
  | ok row =>
    cases hk : event.kind <;> rw [hk] at h
    case phrase => exact absurd h (by decide)
    case finish => exact absurd h (by decide)
    case oneshot => cases Part.oneshot timeline event <;> rfl
    case freeTime => cases FreeTime.add timeline row event <;> rfl
    all_goals rfl

/-- An event whose row has no name fails, whether the row would count or not. -/
theorem place_unnamed {e : LevelError} (h : event.standsInRow = true)
    (hr : rowName event = .error e) : event.place timeline enabled waiting = .error e := by
  rw [place_of_standsInRow h, hr]
  rfl

/-- An event outside the enabled rows does nothing. -/
theorem place_elsewhere (h : event.standsInRow = true) (hr : rowName event = .ok row)
    (hin : row.isIn enabled = false) :
    event.place timeline enabled waiting = .ok (waiting, .none) := by
  rw [place_of_standsInRow h, hr]
  exact if_neg (by rw [hin]; exact Bool.false_ne_true)

theorem place_inRow (h : event.standsInRow = true) (hr : rowName event = .ok row)
    (hin : row.isIn enabled = true) :
    event.place timeline enabled waiting = event.placeInRow timeline row waiting := by
  rw [place_of_standsInRow h, hr]
  exact if_pos hin

/-- What an event that is placed does: which beats wait after it, and what it adds. -/
inductive Event.Does (timeline : Timeline α) (enabled : List (Name α)) (waiting : Waiting α)
    (event : Event α) : Waiting α → Part α → Prop
  | phrase {part : Part α} (kind : event.kind = .phrase)
      (said : Part.spoken timeline event = .ok part) :
      Does timeline enabled waiting event waiting part
  | finish (kind : event.kind = .finish) :
      Does timeline enabled waiting event waiting (Part.finish timeline event)
  | elsewhere {row : Name α} (stands : event.standsInRow = true)
      (named : rowName event = .ok row) (silent : row.isIn enabled = false) :
      Does timeline enabled waiting event waiting .none
  | inRow {row : Name α} {next : Waiting α} {part : Part α} (stands : event.standsInRow = true)
      (named : rowName event = .ok row) (sounds : row.isIn enabled = true)
      (placed : event.placeInRow timeline row waiting = .ok (next, part)) :
      Does timeline enabled waiting event next part

theorem place_eq_ok_iff {next : Waiting α} {part : Part α} :
    event.place timeline enabled waiting = .ok (next, part) ↔
      event.Does timeline enabled waiting next part := by
  constructor
  · intro h
    cases stands : event.standsInRow with
    | false =>
      rcases standsInRow_eq_false_iff.mp stands with kind | kind
      · rw [place_phrase kind, map_eq_ok_iff] at h
        obtain ⟨part, said, ⟨⟩⟩ := h
        exact .phrase kind said
      · rw [place_finish kind] at h
        cases h
        exact .finish kind
    | true =>
      cases named : rowName event with
      | error e => rw [place_unnamed stands named] at h; cases h
      | ok row =>
        cases sounds : row.isIn enabled with
        | false =>
          rw [place_elsewhere stands named sounds] at h
          cases h
          exact .elsewhere stands named sounds
        | true =>
          rw [place_inRow stands named sounds] at h
          exact .inRow stands named sounds h
  · intro h
    cases h with
    | phrase kind said => rw [place_phrase kind, said]; rfl
    | finish kind => exact place_finish kind
    | elsewhere stands named silent => exact place_elsewhere stands named silent
    | inRow stands named sounds placed => rw [place_inRow stands named sounds, placed]

/-- What an event does in an enabled row, by its kind. -/
inductive Event.DoesInRow (timeline : Timeline α) (row : Name α) (waiting : Waiting α)
    (event : Event α) : Waiting α → Part α → Prop
  | oneshot {part : Part α} (kind : event.kind = .oneshot)
      (repeated : Part.oneshot timeline event = .ok part) :
      DoesInRow timeline row waiting event waiting part
  | classic (kind : event.kind = .classic) :
      DoesInRow timeline row waiting event waiting (Part.classic timeline event)
  | freeTime {added : Option (FreeTime α)} {part : Part α} (kind : event.kind = .freeTime)
      (adds : FreeTime.add timeline row event = .ok (added, part)) :
      DoesInRow timeline row waiting event (waiting ++ added.toList) part
  | pulse {next : Waiting α} {part : Part α} (kind : event.kind = .pulse)
      (pulsed : FreeTime.pulseAll timeline row event waiting = .ok (next, part)) :
      DoesInRow timeline row waiting event next part
  | nothing (oneshot : event.kind ≠ .oneshot) (classic : event.kind ≠ .classic)
      (freeTime : event.kind ≠ .freeTime) (pulse : event.kind ≠ .pulse) :
      DoesInRow timeline row waiting event waiting .none

theorem placeInRow_eq_ok_iff {next : Waiting α} {part : Part α} :
    event.placeInRow timeline row waiting = .ok (next, part) ↔
      event.DoesInRow timeline row waiting next part := by
  unfold Event.placeInRow
  constructor
  · intro h
    split at h
    case h_1 kind =>
      obtain ⟨part, repeated, ⟨⟩⟩ := map_eq_ok_iff.mp h
      exact .oneshot kind repeated
    case h_2 kind =>
      cases h
      exact .classic kind
    case h_3 kind =>
      obtain ⟨added, adds, ⟨⟩⟩ := map_eq_ok_iff.mp h
      exact .freeTime kind adds
    case h_4 kind => exact .pulse kind h
    case h_5 oneshot classic freeTime pulse =>
      cases h
      exact .nothing oneshot classic freeTime pulse
  · intro h
    cases h with
    | oneshot kind repeated => rw [kind, repeated]; rfl
    | classic kind => rw [kind]
    | freeTime kind adds => rw [kind, adds]; rfl
    | pulse kind pulsed => rw [kind, pulsed]
    | nothing oneshot classic freeTime pulse =>
      split
      case h_5 => rfl
      all_goals contradiction

/-! ## Steps of an event -/

theorem oneshot_eq (timeline : Timeline α) (event : Event α) :
    Part.oneshot timeline event =
      (Part.Oneshot.ofEvent timeline event).map fun oneshot =>
        { beats := oneshot.beats.map (·.1), hits := oneshot.beats.map (·.2) } := by
  unfold Part.oneshot
  cases Part.Oneshot.ofEvent timeline event <;> rfl

/-- The length of the presses that an event asks for. -/
def Event.pressLength (event : Event α) : Number α :=
  Value.getNumber event "hold" (.whole 0)

/-- The free-time beat that an event adds in a row, on a pulse. -/
def Event.freeTimeBeat (timeline : Timeline α) (row : Name α) (event : Event α) (count : Int) :
    FreeTime α where
  row
  offset := timeline.beatOf event -
    (event.bar.toScalar * timeline.crotchetsOf event + event.beatInBar.toScalar)
  crotchets := timeline.crotchetsOf event
  beat := timeline.beatOf event
  count

/-- A free-time event is pressed at once or adds a beat that waits. -/
theorem add_cases {added : Option (FreeTime α)} {part : Part α}
    (h : FreeTime.add timeline row event = .ok (added, part)) :
    ∃ count, (Value.getNumber event "pulse" (.whole 0)).truncate = .ok count ∧
      ((count = Part.hitPulse ∧ added = none ∧
          part = Part.press timeline (timeline.beatOf event) event.pressLength) ∨
        (count ≠ Part.hitPulse ∧ added = some (event.freeTimeBeat timeline row count) ∧
          part = .none)) := by
  unfold FreeTime.add at h
  split at h
  · cases h
  · rename_i count truncated
    refine ⟨count, truncated, ?_⟩
    simp only at h
    split at h <;> rename_i last <;> cases h
    · exact .inl ⟨last, rfl, rfl⟩
    · exact .inr ⟨last, rfl, rfl⟩

section Pulse

variable {beat : FreeTime α} {others : Waiting α}

/-- What a pulse does to a beat that waits: it counts only after the beat was added. -/
inductive FreeTime.IsPulsed (event : Event α) (beat : FreeTime α) : PulseOutcome α → Prop
  | early (before : Scalar.less beat.beat (beat.positionOf event) = false) :
      IsPulsed event beat (.waits beat)
  | removed {action : PulseAction} (after : Scalar.less beat.beat (beat.positionOf event) = true)
      (asked : PulseAction.ofEvent event = .ok action) (ends : action.next? beat.count = none) :
      IsPulsed event beat .removed
  | lands {action : PulseAction} (after : Scalar.less beat.beat (beat.positionOf event) = true)
      (asked : PulseAction.ofEvent event = .ok action)
      (last : action.next? beat.count = some Part.hitPulse) :
      IsPulsed event beat (.lands (beat.positionOf event))
  | moves {action : PulseAction} {count : Int}
      (after : Scalar.less beat.beat (beat.positionOf event) = true)
      (asked : PulseAction.ofEvent event = .ok action)
      (next : action.next? beat.count = some count) (notLast : count ≠ Part.hitPulse) :
      IsPulsed event beat (.waits { beat with count })

theorem pulse_eq_ok_iff {outcome : PulseOutcome α} :
    beat.pulse event = .ok outcome ↔ beat.IsPulsed event outcome := by
  unfold FreeTime.pulse
  simp only
  constructor
  · intro h
    split at h
    · rename_i after
      split at h
      · cases h
      · rename_i asked
        split at h
        · rename_i ends
          cases h
          exact .removed after asked ends
        · rename_i next
          split at h <;> rename_i last <;> cases h
          · exact .lands after asked (last ▸ next)
          · exact .moves after asked next last
    · rename_i before
      cases h
      exact .early (Bool.eq_false_iff.mpr before)
  · intro h
    cases h with
    | early before => rw [before]; rfl
    | removed after asked ends => simp only [after, asked, ends, ↓reduceIte]
    | lands after asked last => simp only [after, asked, last, ↓reduceIte]
    | moves after asked next notLast => simp only [after, asked, next, ↓reduceIte, if_neg notLast]

/-- What a pulse does to one beat, with what it does to the others. -/
def PulseOutcome.onto (timeline : Timeline α) (event : Event α) (outcome : PulseOutcome α)
    (rest : Waiting α × Part α) : Waiting α × Part α :=
  match outcome with
  | .waits beat => (beat :: rest.1, rest.2)
  | .removed => rest
  | .lands position =>
    (rest.1, Part.press timeline position (Value.getNumber event "hold" (.whole 0)) ++ rest.2)

theorem pulseAll_cons_there (there : beat.row.same row = true) :
    FreeTime.pulseAll timeline row event (beat :: others) =
      (beat.pulse event).bind fun outcome =>
        (FreeTime.pulseAll timeline row event others).map (outcome.onto timeline event) := by
  rw [FreeTime.pulseAll, if_pos there]
  cases beat.pulse event with
  | error e => rfl
  | ok outcome =>
    simp only [bind, Except.bind]
    cases FreeTime.pulseAll timeline row event others with
    | error e => rfl
    | ok rest => cases outcome <;> rfl

theorem pulseAll_cons_elsewhere (elsewhere : beat.row.same row = false) :
    FreeTime.pulseAll timeline row event (beat :: others) =
      (FreeTime.pulseAll timeline row event others).map fun rest =>
        (beat :: rest.1, rest.2) := by
  rw [FreeTime.pulseAll, elsewhere]
  cases FreeTime.pulseAll timeline row event others <;> rfl

/-- What a pulse on a row does to all that waits, beat by beat: which beats wait on, and what
lands. -/
inductive FreeTime.PulsesAll (timeline : Timeline α) (row : Name α) (event : Event α) :
    Waiting α → Waiting α → Part α → Prop
  | nil : PulsesAll timeline row event [] [] .none
  | elsewhere {beat : FreeTime α} {others still : Waiting α} {part : Part α}
      (apart : beat.row.same row = false) (rest : PulsesAll timeline row event others still part) :
      PulsesAll timeline row event (beat :: others) (beat :: still) part
  | waits {beat later : FreeTime α} {others still : Waiting α} {part : Part α}
      (there : beat.row.same row = true) (pulsed : beat.pulse event = .ok (.waits later))
      (rest : PulsesAll timeline row event others still part) :
      PulsesAll timeline row event (beat :: others) (later :: still) part
  | removed {beat : FreeTime α} {others still : Waiting α} {part : Part α}
      (there : beat.row.same row = true) (pulsed : beat.pulse event = .ok .removed)
      (rest : PulsesAll timeline row event others still part) :
      PulsesAll timeline row event (beat :: others) still part
  | lands {beat : FreeTime α} {position : α} {others still : Waiting α} {part : Part α}
      (there : beat.row.same row = true) (pulsed : beat.pulse event = .ok (.lands position))
      (rest : PulsesAll timeline row event others still part) :
      PulsesAll timeline row event (beat :: others) still
        (Part.press timeline position event.pressLength ++ part)

theorem pulseAll_eq_ok_iff {next : Waiting α} {part : Part α} :
    FreeTime.pulseAll timeline row event waiting = .ok (next, part) ↔
      FreeTime.PulsesAll timeline row event waiting next part := by
  constructor
  · intro h
    induction waiting generalizing next part with
    | nil =>
      cases h
      exact .nil
    | cons beat others ih =>
      cases there : beat.row.same row with
      | false =>
        rw [pulseAll_cons_elsewhere there, map_eq_ok_iff] at h
        obtain ⟨rest, pulsed, ⟨⟩⟩ := h
        exact .elsewhere there (ih pulsed)
      | true =>
        rw [pulseAll_cons_there there, bind_eq_ok_iff] at h
        obtain ⟨outcome, does, h⟩ := h
        obtain ⟨rest, pulsed, result⟩ := map_eq_ok_iff.mp h
        cases outcome with
        | waits later => cases result; exact .waits there does (ih pulsed)
        | removed => cases result; exact .removed there does (ih pulsed)
        | lands position => cases result; exact .lands there does (ih pulsed)
  · intro h
    induction h with
    | nil => rfl
    | elsewhere apart _ ih => rw [pulseAll_cons_elsewhere apart, ih]; rfl
    | waits there pulsed _ ih => rw [pulseAll_cons_there there, pulsed, ih]; rfl
    | removed there pulsed _ ih => rw [pulseAll_cons_there there, pulsed, ih]; rfl
    | lands there pulsed _ ih => rw [pulseAll_cons_there there, pulsed, ih]; rfl

end Pulse

/-! ## Voices -/

section Voices

variable {next : Waiting α} {part : Part α}

theorem voiceOfName_mem (name : Text) : voiceOfName name ∈ Voice.all := by
  unfold voiceOfName Text.lookup
  cases hf : voiceNames.find? (fun entry => Text.ofString entry.1 == name) with
  | none => exact List.mem_cons_self
  | some entry =>
    have known : ∀ entry ∈ voiceNames, entry.2 ∈ Voice.all := by decide
    exact known entry (List.mem_of_find?_eq_some hf)

theorem voice_of_syllables {beat : α} {tick : Number α} {voice : Voice}
    {parts : List (Option CueKind)} {cue : Cue α}
    (h : cue ∈ Part.syllables timeline beat tick voice parts) : cue.voice = voice := by
  unfold Part.syllables at h
  obtain ⟨⟨syllable, i⟩, -, h⟩ := List.mem_filterMap.mp h
  obtain ⟨kind, -, rfl⟩ := Option.map_eq_some_iff.mp h
  rfl

/-- A phrase has cues only, all in one voice of the level. -/
theorem spoken_cases (h : Part.spoken timeline event = .ok part) :
    part = .none ∨ ∃ voice ∈ Voice.all, ∃ parts, part =
      { cues := Part.syllables timeline (timeline.beatOf event)
          (Value.getNumber event "tick" (.whole 1)) voice parts } := by
  unfold Part.spoken at h
  cases hp : Part.nameOr (Value.get event "phraseToSay") defaultPhrase with
  | error e => rw [hp] at h; cases h
  | ok name =>
    rw [hp] at h
    cases name with
    | null => cases h; exact .inl rfl
    | number n => cases h; exact .inl rfl
    | text phrase =>
      cases hk : phrase? phrase with
      | none =>
        simp only [bind, Except.bind, hk] at h
        cases h
        exact .inl rfl
      | some parts =>
        cases hv : Part.nameOr (Value.get event "voiceSource") "Nurse" with
        | error e => simp [bind, Except.bind, hk, hv] at h
        | ok voice =>
          simp only [bind, Except.bind, hk, hv] at h
          cases h
          refine .inr ⟨_, ?_, parts, rfl⟩
          cases voice with
          | text name => exact voiceOfName_mem name
          | _ => exact List.mem_cons_self

theorem voice_of_spoken (h : Part.spoken timeline event = .ok part) :
    ∀ cue ∈ part.cues, cue.voice ∈ Voice.all := by
  rcases spoken_cases h with rfl | ⟨voice, known, parts, rfl⟩
  · exact nofun
  · intro cue mem
    rw [voice_of_syllables mem]
    exact known

theorem cues_press (beat : α) (length : Number α) :
    (Part.press timeline beat length).cues = [] := by
  unfold Part.press
  simp only
  split <;> rfl

theorem cues_pulseAll (h : FreeTime.pulseAll timeline row event waiting = .ok (next, part)) :
    part.cues = [] := by
  rw [pulseAll_eq_ok_iff] at h
  induction h with
  | nil => rfl
  | elsewhere _ _ ih => exact ih
  | waits _ _ _ ih => exact ih
  | removed _ _ _ ih => exact ih
  | lands _ _ _ ih => rw [Part.cues_append, cues_press, ih]; rfl

/-- Beats and pulses add no cues. -/
theorem cues_placeInRow (h : event.placeInRow timeline row waiting = .ok (next, part)) :
    part.cues = [] := by
  cases placeInRow_eq_ok_iff.mp h with
  | oneshot _ repeated =>
    rw [oneshot_eq] at repeated
    obtain ⟨oneshot, -, rfl⟩ := map_eq_ok_iff.mp repeated
    rfl
  | classic => exact cues_press _ _
  | freeTime _ adds =>
    obtain ⟨count, -, ⟨-, -, rfl⟩ | ⟨-, -, rfl⟩⟩ := add_cases adds
    · exact cues_press _ _
    · rfl
  | pulse _ pulsed => exact cues_pulseAll pulsed
  | nothing => rfl

/-- Only the voices of a level speak. -/
theorem voice_of_place (h : event.place timeline enabled waiting = .ok (next, part)) :
    ∀ cue ∈ part.cues, cue.voice ∈ Voice.all := by
  cases place_eq_ok_iff.mp h with
  | phrase _ said => exact voice_of_spoken said
  | finish =>
    intro cue mem
    obtain ⟨voice, known, rfl⟩ := List.mem_map.mp mem
    exact known
  | elsewhere => exact nofun
  | inRow _ _ _ placed =>
    rw [cues_placeInRow placed]
    exact nofun

end Voices

/-! ## Runs -/

/-- The events of a list are placed one after the other. The trace has each event with what it
adds. -/
inductive Placed (timeline : Timeline α) (enabled : List (Name α)) :
    Waiting α → List (Event α) → List (Event α × Part α) → Waiting α → Prop
  | nil (waiting : Waiting α) : Placed timeline enabled waiting [] [] waiting
  | cons {waiting next after : Waiting α} {event : Event α} {part : Part α}
      {events : List (Event α)} {trace : List (Event α × Part α)}
      (first : event.place timeline enabled waiting = .ok (next, part))
      (rest : Placed timeline enabled next events trace after) :
      Placed timeline enabled waiting (event :: events) ((event, part) :: trace) after

/-- Every event of a run was placed. -/
theorem Placed.exists_place {waiting after : Waiting α} {events : List (Event α)}
    {trace : List (Event α × Part α)} (h : Placed timeline enabled waiting events trace after)
    (mem : event ∈ events) :
    ∃ state result, event.place timeline enabled state = .ok result := by
  induction h with
  | nil => cases mem
  | cons first _ ih =>
    rcases List.mem_cons.mp mem with rfl | mem
    · exact ⟨_, _, first⟩
    · exact ih mem

/-- The cues of a run are in voices of the level. -/
theorem Placed.voices {waiting after : Waiting α} {events : List (Event α)}
    {trace : List (Event α × Part α)} (h : Placed timeline enabled waiting events trace after) :
    ∀ cue ∈ trace.flatMap (·.2.cues), cue.voice ∈ Voice.all := by
  induction h with
  | nil => exact nofun
  | cons first _ ih =>
    intro cue mem
    rw [List.flatMap_cons] at mem
    rcases List.mem_append.mp mem with mem | mem
    · exact voice_of_place first cue mem
    · exact ih cue mem

/-- All that a trace adds. -/
def joined : List (Event α × Part α) → Part α
  | [] => .none
  | (_, part) :: trace => part ++ joined trace

omit [Scalar α] in
theorem cues_joined (trace : List (Event α × Part α)) :
    (joined trace).cues = trace.flatMap (·.2.cues) := by
  induction trace with
  | nil => rfl
  | cons first trace ih => rw [joined, Part.cues_append, ih, List.flatMap_cons]

omit [Scalar α] in
theorem beats_joined (trace : List (Event α × Part α)) :
    (joined trace).beats = trace.flatMap (·.2.beats) := by
  induction trace with
  | nil => rfl
  | cons first trace ih => rw [joined, Part.beats_append, ih, List.flatMap_cons]

omit [Scalar α] in
theorem hits_joined (trace : List (Event α × Part α)) :
    (joined trace).hits = trace.flatMap (·.2.hits) := by
  induction trace with
  | nil => rfl
  | cons first trace ih => rw [joined, Part.hits_append, ih, List.flatMap_cons]

omit [Scalar α] in
theorem holds_joined (trace : List (Event α × Part α)) :
    (joined trace).holds = trace.flatMap (·.2.holds) := by
  induction trace with
  | nil => rfl
  | cons first trace ih => rw [joined, Part.holds_append, ih, List.flatMap_cons]

variable {events : List (Event α)} {after : Waiting α} {part : Part α}

theorem placeAll_cons (event : Event α) (events : List (Event α)) :
    placeAll timeline enabled waiting (event :: events) =
      (event.place timeline enabled waiting).bind fun first =>
        (placeAll timeline enabled first.1 events).map fun rest =>
          (rest.1, first.2 ++ rest.2) := by
  rw [placeAll]
  cases event.place timeline enabled waiting with
  | error e => rfl
  | ok first =>
    simp only [bind, Except.bind]
    cases placeAll timeline enabled first.1 events <;> rfl

/-- Events have a result together exactly if they are placed one after the other. -/
theorem placeAll_eq_ok_iff :
    placeAll timeline enabled waiting events = .ok (after, part) ↔
      ∃ trace, Placed timeline enabled waiting events trace after ∧ joined trace = part := by
  induction events generalizing waiting part with
  | nil =>
    constructor
    · intro h
      cases h
      exact ⟨[], .nil _, rfl⟩
    · rintro ⟨trace, ⟨⟩, rfl⟩
      rfl
  | cons event events ih =>
    rw [placeAll_cons, bind_eq_ok_iff]
    constructor
    · rintro ⟨first, placed, h⟩
      obtain ⟨rest, later, ⟨⟩⟩ := map_eq_ok_iff.mp h
      obtain ⟨trace, run, joins⟩ := ih.mp later
      exact ⟨(event, first.2) :: trace, .cons placed run, by rw [joined, joins]⟩
    · rintro ⟨trace, placed, rfl⟩
      cases placed with
      | cons first rest =>
        exact ⟨_, first, map_eq_ok_iff.mpr ⟨_, ih.mpr ⟨_, rest, rfl⟩, rfl⟩⟩

/-- The events of a list fail together exactly if one of them fails where those before it leave
off. -/
theorem placeAll_eq_error_iff {e : LevelError} :
    placeAll timeline enabled waiting events = .error e ↔
      ∃ before event rest state trace, events = before ++ event :: rest ∧
        Placed timeline enabled waiting before trace state ∧
        event.place timeline enabled state = .error e := by
  induction events generalizing waiting with
  | nil => simp [placeAll]
  | cons event events ih =>
    rw [placeAll_cons, bind_eq_error_iff]
    simp only [map_eq_error_iff, ih]
    constructor
    · rintro (fails | ⟨first, placed, before, failing, rest, state, trace, rfl, run, fails⟩)
      · exact ⟨[], event, events, waiting, [], rfl, .nil _, fails⟩
      · exact ⟨event :: before, failing, rest, state, _, rfl, .cons placed run, fails⟩
    · rintro ⟨before, failing, rest, state, trace, split, run, fails⟩
      cases run with
      | nil =>
        cases split
        exact .inl fails
      | cons first run =>
        cases split
        exact .inr ⟨_, first, _, _, _, _, _, rfl, run, fails⟩

/-! ## Levels -/

section Level

variable {members : Value.Members α} {entries : List (Value α)} {level : Level α}

theorem ofMembers_eq (members : Value.Members α) (entries : List (Value α)) :
    Level.ofMembers members entries =
      (enabledRows members).bind fun enabled =>
        (placeAll (.ofEvents (keptEvents entries)) enabled [] (keptEvents entries)).map
          fun placed => Level.ofPart (.ofEvents (keptEvents entries)) placed.2 := by
  unfold Level.ofMembers
  cases enabledRows members with
  | error e => rfl
  | ok enabled =>
    simp only [bind, Except.bind]
    cases placeAll (.ofEvents (keptEvents entries)) enabled [] (keptEvents entries) <;> rfl

/-- A level object decodes exactly if its rows have names and its events are placed one after the
other. The level has what the events add. -/
theorem ofMembers_eq_ok_iff :
    Level.ofMembers members entries = .ok level ↔
      ∃ enabled trace after, enabledRows members = .ok enabled ∧
        Placed (.ofEvents (keptEvents entries)) enabled [] (keptEvents entries) trace after ∧
        Level.ofPart (.ofEvents (keptEvents entries)) (joined trace) = level := by
  rw [ofMembers_eq, bind_eq_ok_iff]
  simp only [map_eq_ok_iff]
  constructor
  · rintro ⟨enabled, rows, placed, h, rfl⟩
    obtain ⟨trace, run, joins⟩ := placeAll_eq_ok_iff.mp h
    exact ⟨enabled, trace, placed.1, rows, run, by rw [joins]⟩
  · rintro ⟨enabled, trace, after, rows, run, rfl⟩
    exact ⟨enabled, rows, _, placeAll_eq_ok_iff.mpr ⟨trace, run, rfl⟩, rfl⟩

theorem ofValue_eq_ofMembers (events : Value.get members "events" = .array entries) :
    Level.ofValue (.object members) = Level.ofMembers members entries := by
  unfold Level.ofValue
  simp only [events]

theorem ofText_eq_ofMembers {text : List Char} (object : LevelText.decode text = .object members)
    (events : Value.get members "events" = .array entries) :
    Level.ofText text = Level.ofMembers members entries := by
  unfold Level.ofText
  rw [object, ofValue_eq_ofMembers events]

/-- Only an object with a list of events decodes. -/
theorem ofValue_eq_ok_iff {value : Value α} :
    Level.ofValue value = .ok level ↔
      ∃ members entries, value = .object members ∧ Value.get members "events" = .array entries ∧
        Level.ofMembers members entries = .ok level := by
  constructor
  · intro h
    unfold Level.ofValue at h
    split at h
    · rename_i members
      split at h
      · rename_i entries events
        exact ⟨members, entries, rfl, events, h⟩
      · cases h
    · cases h
  · rintro ⟨members, entries, rfl, events, h⟩
    rwa [ofValue_eq_ofMembers events]

end Level

end CueCheck
