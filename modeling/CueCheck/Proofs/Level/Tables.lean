import CueCheck.Proofs.Level.Placement
import CueCheck.Proofs.RateTable.Ascending
import CueCheck.Proofs.Sorting.Stable
import Mathlib

/-!
# The tables of a decoded level

The bar lengths and the tempos that a level sets are checked before they get into its tables, and
the default bar length is positive. So is the default tempo, but the first song has its tempo put in
that place, and there only a tempo of zero is refused.

- **What the tables are made of** (`timeline_of_ofValue`): the events that take effect, and nothing
  else of the level.
- **The start** (`StartsInTempo`): the first song has a positive tempo, or a positive tempo is set
  right at the start.
- **The result** (`ofText_tables`): bars always ascend. Tempos ascend exactly if the level starts in
  tempo (`ofText_tables_descend` is a level that does not).
-/

namespace CueCheck

open Scalar

variable {α : Type} [Scalar α]

/-- The events of a level object that take effect, by bar. -/
def Value.events (value : Value α) : List (Event α) :=
  match value with
  | .object members =>
    match Value.get members "events" with
    | .array entries => keptEvents entries
    | _ => []
  | _ => []

theorem timeline_of_ofValue {value : Value α} {level : Level α}
    (h : Level.ofValue value = .ok level) :
    level.bars = (Timeline.ofEvents value.events).bars ∧
      level.tempos = (Timeline.ofEvents value.events).tempos := by
  obtain ⟨members, entries, rfl, events, decodes⟩ := ofValue_eq_ok_iff.mp h
  obtain ⟨enabled, trace, after, -, -, rfl⟩ := ofMembers_eq_ok_iff.mp decodes
  have kept : (Value.object members).events = keptEvents entries := by
    unfold Value.events
    simp only [events]
  rw [kept]
  exact ⟨rfl, rfl⟩

/-! ## The start -/

/-- The changes of tempo that events ask for. -/
def tempoChanges (events : List (Event α)) : List (RateChange α) :=
  events.filterMap (tempoChange? (Timeline.ofEvents events).bars)

/-- The beats at the start have a length: the tempo of the first song gives them one, or a change of
tempo that stands there does. -/
def StartsInTempo (events : List (Event α)) : Prop :=
  IsPositive (RateTable.secondsPerBeat (initialTempo events)) ∨
    ∃ change ∈ tempoChanges events, (change.key == zero) = true ∧ less zero change.rate = true ∧
      RateChange.isValid { change with rate := RateTable.secondsPerBeat change.rate } = true

theorem isPositive_secondsPerBeat_rat {tempo : ℚ} :
    IsPositive (RateTable.secondsPerBeat tempo) ↔ 0 < tempo := by
  rw [isPositive_rat]
  show 0 < (60 : ℚ) / tempo ↔ 0 < tempo
  exact div_pos_iff_of_pos_left (by norm_num)

/-- Over the rationals nothing overflows: a tempo is positive, or it is not. -/
theorem startsInTempo_rat {events : List (Event ℚ)} :
    StartsInTempo events ↔
      0 < initialTempo events ∨
        ∃ change ∈ tempoChanges events, change.key = 0 ∧ 0 < change.rate := by
  have valid (change : RateChange ℚ) : (change.key == zero) = true ∧
      less zero change.rate = true ∧
        RateChange.isValid { change with rate := RateTable.secondsPerBeat change.rate } = true ↔
      change.key = 0 ∧ 0 < change.rate := by
    rw [less_iff]
    constructor
    · rintro ⟨start, positive, -⟩
      exact ⟨eq_of_beq start, positive⟩
    · rintro ⟨start, positive⟩
      have rate := isPositive_rat.mp (isPositive_secondsPerBeat_rat.mpr positive)
      have rateValid : decide (RateTable.secondsPerBeat change.rate ≤ zero) = false :=
        decide_eq_false (not_le.mpr rate)
      refine ⟨beq_iff_eq.mpr start, positive, ?_⟩
      simp only [RateChange.isValid, start, rateValid, isFinite_rat,
        less_eq_false_iff.mpr (show (zero : ℚ) ≤ 0 from le_rfl)]
      rfl
  rw [StartsInTempo, isPositive_secondsPerBeat_rat]
  simp only [valid]

/-! ## The tables -/

section Tables

variable (events : List (Event α))

theorem isPositive_bars [OrderedByValue α]
    (default : IsPositive (RateTable.defaultCrotchetsPerBar : α)) :
    ∀ row ∈ (Timeline.ofEvents events).bars.rows, IsPositive row.rate :=
  RateTable.isPositive_ofChanges_iff.mpr (.inl default)

/-- A change of tempo stands at the start of its table exactly if it stands there as a change of the
length of beats. -/
theorem exists_valid_tempo_iff :
    (∃ change ∈ ((tempoChanges events).filter fun change => less zero change.rate).map
        fun change => { change with rate := RateTable.secondsPerBeat change.rate },
      change.isValid = true ∧ (change.key == zero) = true) ↔
      ∃ change ∈ tempoChanges events, (change.key == zero) = true ∧
        less zero change.rate = true ∧
        RateChange.isValid { change with rate := RateTable.secondsPerBeat change.rate } = true := by
  simp only [List.mem_map, List.mem_filter]
  constructor
  · rintro ⟨_, ⟨change, ⟨mem, positive⟩, rfl⟩, valid, start⟩
    exact ⟨change, mem, start, positive, valid⟩
  · rintro ⟨change, mem, start, positive, valid⟩
    exact ⟨_, ⟨change, ⟨mem, positive⟩, rfl⟩, valid, start⟩

theorem isPositive_tempos_iff [OrderedByValue α] :
    (∀ row ∈ (Timeline.ofEvents events).tempos.rows, IsPositive row.rate) ↔
      StartsInTempo events := by
  rw [StartsInTempo, ← exists_valid_tempo_iff]
  exact RateTable.isPositive_ofChanges_iff

theorem isAscending_tempos_iff (events : List (Event ℚ)) :
    (Timeline.ofEvents events).tempos.IsAscending ↔ StartsInTempo events := by
  rw [StartsInTempo, ← exists_valid_tempo_iff]
  exact RateTable.isAscending_ofChanges_iff

end Tables

/-- The tables of a level that a text decodes to. Over exact rationals bars ascend and convert
without going back, and tempos do both exactly if the level starts in tempo. As binary64 numbers the
rates of bars are positive and finite, and those of tempos are exactly if the level starts in
tempo. -/
theorem ofText_tables (text : List Char) :
    (∀ level : Level ℚ, Level.ofText text = .ok level →
      (level.bars.IsAscending ∧ StrictMono level.bars.forward) ∧
        (level.tempos.IsAscending ↔ StartsInTempo (LevelText.decode text : Value ℚ).events) ∧
        (StrictMono level.tempos.forward ↔
          StartsInTempo (LevelText.decode text : Value ℚ).events)) ∧
      ∀ level : Level Float, Level.ofText text = .ok level →
        (∀ row ∈ level.bars.rows, IsPositive row.rate) ∧
          ((∀ row ∈ level.tempos.rows, IsPositive row.rate) ↔
            StartsInTempo (LevelText.decode text : Value Float).events) := by
  constructor
  · intro level h
    obtain ⟨bars, tempos⟩ := timeline_of_ofValue h
    have ascending : level.bars.IsAscending := by
      rw [bars]
      exact RateTable.isAscending_ofChanges_iff.mpr (.inl (isPositive_rat.mpr (by decide +kernel)))
    refine ⟨⟨ascending, ?_⟩, ?_, ?_⟩
    · rw [bars] at ascending ⊢
      exact RateTable.strictMono_forward_ofChanges_iff.mpr ascending
    · rw [tempos]
      exact isAscending_tempos_iff _
    · rw [tempos, ← isAscending_tempos_iff]
      exact RateTable.strictMono_forward_ofChanges_iff
  · intro level h
    obtain ⟨bars, tempos⟩ := timeline_of_ofValue h
    rw [bars, tempos]
    exact ⟨isPositive_bars _ ⟨8, by decide +kernel, by norm_num⟩, isPositive_tempos_iff _⟩

/-- A song that is slowed down in the second bar. -/
theorem ofText_tables_slowed_song :
    let text :=
      ("\x7b\"events\":[\x7b\"type\":\"PlaySong\",\"bpm\":120\x7d," ++
        "\x7b\"type\":\"SetBeatsPerMinute\",\"bar\":2,\"beatsPerMinute\":60\x7d]\x7d").toList
    ∃ level : Level ℚ, Level.ofText text = .ok level ∧
      (level.bars.IsAscending ∧ StrictMono level.bars.forward) ∧
      level.tempos.IsAscending ∧ StrictMono level.tempos.forward := by
  intro text
  have decodes : (Level.ofText text : Except LevelError (Level ℚ)).isOk = true := by
    simp only [Level.ofText, Level.ofValue, Level.ofMembers, keptEvents, sortBy_eq_sorted]
    decide +kernel
  have starts : StartsInTempo (LevelText.decode text : Value ℚ).events := by
    refine startsInTempo_rat.mpr (.inl ?_)
    simp only [Value.events, keptEvents, sortBy_eq_sorted]
    decide +kernel
  cases h : (Level.ofText text : Except LevelError (Level ℚ)) with
  | error e => rw [h] at decodes; cases decodes
  | ok level =>
    obtain ⟨bars, ascending, mono⟩ := (ofText_tables text).1 level h
    exact ⟨level, rfl, bars, ascending.mpr starts, mono.mpr starts⟩

/-- The beats of a song with a negative tempo go back in time. -/
theorem ofText_tables_descend :
    let text := "\x7b\"events\":[\x7b\"type\":\"PlaySong\",\"bpm\":-60\x7d]\x7d".toList
    ∃ level : Level ℚ, Level.ofText text = .ok level ∧
      level.tempos.forward 0 = 0 ∧ level.tempos.forward 1 = -1 ∧
      ¬level.tempos.IsAscending ∧ ¬StrictMono level.tempos.forward := by
  intro text
  have goesBack : (match (Level.ofText text : Except LevelError (Level ℚ)) with
      | .ok level => decide (level.tempos.forward 0 = 0 ∧ level.tempos.forward 1 = -1 ∧
          level.tempos.first.rate = -1)
      | .error _ => false) = true := by
    decide +kernel
  cases h : (Level.ofText text : Except LevelError (Level ℚ)) with
  | error e => rw [h] at goesBack; cases goesBack
  | ok level =>
    rw [h] at goesBack
    obtain ⟨start, next, rate⟩ := of_decide_eq_true goesBack
    refine ⟨level, rfl, start, next, fun ascending => ?_, fun mono => ?_⟩
    · have := ascending.rates _ List.mem_cons_self
      rw [rate] at this
      norm_num at this
    · have := mono (show (0 : ℚ) < 1 by norm_num)
      rw [start, next] at this
      norm_num at this

end CueCheck
