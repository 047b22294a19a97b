import CueCheck.Proofs.Cue.Pending

/-!
# Where an expected beat comes from

Every expected beat is asked for by one cue: a go, whose run lasts up to the next cue that ends it,
or a counted pulse.

- **The relation** (`AsksFor`): a cue of a list asks for a beat. It is read off the list and the
  state right after the go, or right before the pulse; the states in between do not matter.
- **Runs** (`started_of_start?`): where a run is in progress, the list has a go that started it, no
  cue of the voice has ended it since, and it plays the pattern of that go.
- **Beats of a run** (`Run.exists_of_mem_beats`): they are terms of a pattern that can be played,
  the first of which is due.
- **Completeness** (`exists_asksFor`): every beat that comes about is asked for by some cue.
- **The converse** (`AsksFor.mem_beats`): every beat that a cue asks for comes about.
-/

namespace CueCheck

variable {α : Type} [Scalar α] {options : Options} {cues : List (Cue α)} {voice : Voice}

/-- Where a run has beats, its pattern can be played, its first term is due, and they are terms. -/
theorem Run.exists_of_mem_beats {run : Run α} {stop : α} {beat : ExpectedBeat α}
    (h : beat ∈ run.beats stop) :
    run.pattern.isPlayable = true ∧ run.isDue stop 0 = true ∧ ∃ k, beat = run.beat k := by
  have terms {k limit : Nat} (h : beat ∈ run.beatsFrom stop k limit) :
      run.isDue stop k = true ∧ ∃ i, beat = run.beat i := by
    induction limit generalizing k with
    | zero => cases h
    | succ limit ih =>
      unfold Run.beatsFrom at h
      split at h
      · rename_i due
        refine ⟨due, ?_⟩
        rcases List.mem_cons.mp h with rfl | h
        · exact ⟨k, rfl⟩
        · exact (ih h).2
      · cases h
  unfold Run.beats Run.firstBeats at h
  split at h
  · rename_i playable
    exact ⟨playable, terms h⟩
  · cases h

/-- A cue of a list asks for a beat. -/
inductive AsksFor (options : Options) (cues : List (Cue α)) : Cue α → ExpectedBeat α → Prop
  /-- A go asks for the beats of its run that are due at the cue that ends the run. -/
  | run {before between after : List (Cue α)} {go ending : Cue α} {beat : ExpectedBeat α}
      (split : cues = before ++ go :: (between ++ ending :: after))
      (starts : go.kind = .go)
      (goes : ∀ cue ∈ between, Sources.voiceOf options cue = Sources.voiceOf options go →
        cue.kind.endsRun options = false)
      (own : Sources.voiceOf options ending = Sources.voiceOf options go)
      (ends : ending.kind.endsRun options = true)
      (due : beat ∈ Run.beats
        ⟨go.time, (states options .silent (before ++ [go]) (Sources.voiceOf options go)).playing⟩
        ending.time) :
      AsksFor options cues go beat
  /-- A pulse asks for the beats of the square pattern that it confirms. -/
  | pulse {before after : List (Cue α)} {pulse : Cue α} {count : Int} {pattern : Pattern α}
      {beat : ExpectedBeat α}
      (split : cues = before ++ pulse :: after)
      (counts : pulse.kind = .pulse count)
      (confirms : (states options .silent before (Sources.voiceOf options pulse)).confirmed
        pulse.time pulse.kind = some pattern)
      (plays : beat ∈ squareBeats pattern pulse.time count options.triangles) :
      AsksFor options cues pulse beat

/-- More cues after a list take nothing back. -/
theorem AsksFor.append {cue : Cue α} {beat : ExpectedBeat α} (h : AsksFor options cues cue beat)
    (more : List (Cue α)) : AsksFor options (cues ++ more) cue beat := by
  cases h with
  | @run before between after _ ending _ split starts goes own ends due =>
    have split' : cues ++ more = before ++ cue :: (between ++ ending :: (after ++ more)) := by
      simp only [split, List.append_assoc, List.cons_append]
    exact .run split' starts goes own ends due
  | @pulse before after _ count pattern _ split counts confirms plays =>
    have split' : cues ++ more = before ++ cue :: (after ++ more) := by
      simp only [split, List.append_assoc, List.cons_append]
    exact .pulse split' counts confirms plays

/-- A run in progress: the go that started it, and that nothing has ended it since. -/
def Started (options : Options) (cues : List (Cue α)) (voice : Voice) (start : α)
    (playing : Pattern α) : Prop :=
  ∃ before go between, cues = before ++ go :: between ∧ Sources.voiceOf options go = voice ∧
    go.kind = .go ∧ go.time = start ∧
    (∀ cue ∈ between, Sources.voiceOf options cue = voice → cue.kind.endsRun options = false) ∧
    playing = (states options .silent (before ++ [go]) voice).playing

theorem Started.concat {start : α} {playing : Pattern α} {cue : Cue α}
    (h : Started options cues voice start playing)
    (goes : Sources.voiceOf options cue = voice → cue.kind.endsRun options = false) :
    Started options (cues ++ [cue]) voice start playing := by
  obtain ⟨before, go, between, rfl, hv, hk, ht, hb, hp⟩ := h
  refine ⟨before, go, between ++ [cue], by simp, hv, hk, ht, fun c hc hcv => ?_, hp⟩
  rcases List.mem_append.mp hc with hc | hc
  · exact hb c hc hcv
  · obtain rfl := List.mem_singleton.mp hc
    exact goes hcv

/-- The state of a voice has a start only where a go has started a run that still lasts. -/
theorem started_of_start? {start : α}
    (h : (states options .silent cues voice).start? = some start) :
    Started options cues voice start (states options .silent cues voice).playing := by
  induction cues using List.reverseRecOn with
  | nil => cases h
  | append_singleton cues cue ih =>
    rw [states_concat] at h ⊢
    by_cases hv : voice = Sources.voiceOf options cue
    · subst hv
      rw [Sources.step_self, Source.start?_step] at h
      by_cases hk : cue.kind = .go
      · rw [if_pos hk] at h
        refine ⟨cues, cue, [], rfl, rfl, hk, Option.some.inj h, fun c hc => ?_, ?_⟩
        · cases hc
        · rw [states_concat]
      · rw [if_neg hk] at h
        cases he : cue.kind.endsRun options with
        | true => rw [he, if_pos rfl] at h; cases h
        | false =>
          rw [he, if_neg Bool.false_ne_true] at h
          rw [Sources.step_self, Source.playing_step, if_neg hk]
          exact (ih h).concat fun _ => he
    · rw [Sources.step_of_ne _ _ hv] at h ⊢
      exact (ih h).concat fun hv' => absurd hv'.symm hv

/-- The beats of a cue: those of the run that it ends, and those that it asks for as a pulse. -/
theorem exists_asksFor_of_step {cue : Cue α} {beat : ExpectedBeat α}
    (h : beat ∈ ((states options .silent cues).step options cue).2.beats) :
    ∃ asking, AsksFor options (cues ++ [cue]) asking beat := by
  rw [Sources.step_eq, Source.beats_step] at h
  rcases List.mem_append.mp h with h | h
  · split at h
    · rename_i he
      unfold Source.dueBeats at h
      split at h
      · rename_i start hs
        obtain ⟨before, go, between, hsplit, hv, hk, ht, hb, hp⟩ := started_of_start? hs
        rw [hp, ← ht, ← hv] at h
        rw [← hv] at hb
        have split : cues ++ [cue] = before ++ go :: (between ++ cue :: []) := by
          rw [hsplit, List.append_assoc, List.cons_append]
        exact ⟨go, .run split hk hb hv.symm he h⟩
      · cases h
    · cases h
  · split at h
    · rename_i count hk
      cases hc : (states options .silent cues (Sources.voiceOf options cue)).confirmed
          cue.time cue.kind with
      | none => rw [hc] at h; cases h
      | some pattern => rw [hc] at h; exact ⟨cue, .pulse rfl hk hc h⟩
    · cases h

/-- Every beat that comes about is asked for by some cue. -/
theorem exists_asksFor {beat : ExpectedBeat α} (h : beat ∈ (emissions options .silent cues).beats) :
    ∃ asking, AsksFor options cues asking beat := by
  induction cues using List.reverseRecOn with
  | nil => cases h
  | append_singleton cues cue ih =>
    rw [emissions_concat, Emission.beats_append] at h
    rcases List.mem_append.mp h with h | h
    · obtain ⟨asking, ha⟩ := ih h
      exact ⟨asking, ha.append [cue]⟩
    · exact exists_asksFor_of_step h

/-- A run goes on as long as no cue of the voice ends it. -/
theorem run_states_of_goes (sources : Sources α)
    (goes : ∀ cue ∈ cues, Sources.voiceOf options cue = voice → cue.kind.endsRun options = false) :
    (states options sources cues voice).start? = (sources voice).start? ∧
      (states options sources cues voice).playing = (sources voice).playing := by
  induction cues generalizing sources with
  | nil => exact ⟨rfl, rfl⟩
  | cons cue cues ih =>
    obtain ⟨hs, hp⟩ := ih (sources.step options cue).1
      fun c hc => goes c (List.mem_cons_of_mem _ hc)
    rw [states_cons, hs, hp]
    by_cases hv : voice = Sources.voiceOf options cue
    · subst hv
      have he := goes cue List.mem_cons_self rfl
      have hk : cue.kind ≠ .go := by
        intro hk
        rw [hk] at he
        cases he
      rw [Sources.step_self, Source.start?_step, Source.playing_step, if_neg hk, if_neg hk, he]
      exact ⟨rfl, rfl⟩
    · rw [Sources.step_of_ne _ _ hv]
      exact ⟨rfl, rfl⟩

/-- What a step brings about stays among the beats, whatever comes after it. -/
theorem mem_beats_of_step {before after : List (Cue α)} {cue : Cue α} {beat : ExpectedBeat α}
    (h : beat ∈ ((states options .silent before).step options cue).2.beats) :
    beat ∈ (emissions options .silent (before ++ cue :: after)).beats := by
  rw [emissions_append, emissions_cons, Emission.beats_append, Emission.beats_append]
  exact List.mem_append_right _ (List.mem_append_left _ h)

/-- What a cue asks for comes about. -/
theorem AsksFor.mem_beats {cue : Cue α} {beat : ExpectedBeat α}
    (h : AsksFor options cues cue beat) : beat ∈ (emissions options .silent cues).beats := by
  cases h with
  | @run before between after _ ending _ split starts goes own ends due =>
    obtain ⟨hs, hp⟩ := run_states_of_goes (states options .silent (before ++ [cue])) goes
    rw [← states_append, states_concat, Sources.step_self, Source.start?_step, if_pos starts] at hs
    rw [← states_append] at hp
    rw [split, show before ++ cue :: (between ++ ending :: after) =
      (before ++ [cue] ++ between) ++ ending :: after by simp]
    refine mem_beats_of_step ?_
    rw [Sources.step_eq, Source.beats_step, if_pos ends, own]
    refine List.mem_append_left _ ?_
    unfold Source.dueBeats
    rw [hs, hp]
    exact due
  | @pulse before after _ count pattern _ split counts confirms plays =>
    rw [split]
    refine mem_beats_of_step ?_
    rw [Sources.step_eq, Source.beats_step]
    refine List.mem_append_right _ ?_
    rw [counts] at confirms ⊢
    rw [confirms]
    exact plays

end CueCheck
