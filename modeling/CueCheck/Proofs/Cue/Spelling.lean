import CueCheck.Proofs.Cue.Step

/-!
# Options spelled out in the cues

Two of the options need not be there: what they bring about can be written into the list of cues.

- **One voice** (`emissions_spokenBy`): with `ignoreVoices` all cues count for the nurse. Without it
  the same comes about once one voice speaks all of them; which one does not matter.
- **Stops** (`states_withStop`, `emissions_withStop`): with `interruptible` a pulse ends the run of
  its voice before anything else. Without it a stop of that voice, right before the pulse, does.
- **The result** (`play_spelled_out`): the same beats and the same invalid times are reported.
-/

namespace CueCheck

variable {α : Type} {options : Options}

/-- A cue as another voice speaks it. -/
def Cue.spokenBy (voice : Voice) (cue : Cue α) : Cue α :=
  { cue with voice }

/-- A pulse after a stop of its own voice and time; any other cue as it is. -/
def Cue.withStop (cue : Cue α) : List (Cue α) :=
  match cue.kind with
  | .pulse _ => [{ cue with kind := .stop }, cue]
  | _ => [cue]

theorem Cue.withStop_spokenBy (voice : Voice) (cue : Cue α) :
    (cue.spokenBy voice).withStop = cue.withStop.map (·.spokenBy voice) := by
  obtain ⟨time, kind, own⟩ := cue
  cases kind <;> rfl

variable [Scalar α]

/-! ## One voice -/

/-- A voice does not look at the option that decides which voice a cue counts for. -/
theorem Source.step_ignoreVoices (flag : Bool) (source : Source α) (time : α) (kind : CueKind) :
    source.step { options with ignoreVoices := flag } time kind =
      source.step options time kind := by
  cases kind <;> rfl

theorem emissions_spokenBy (voice : Voice) {sources others : Sources α} (cues : List (Cue α))
    (h : sources .nurse = others voice) :
    emissions { options with ignoreVoices := true } sources cues =
      emissions { options with ignoreVoices := false } others (cues.map (·.spokenBy voice)) := by
  induction cues generalizing sources others with
  | nil => rfl
  | cons cue cues ih =>
    have hall : Sources.voiceOf { options with ignoreVoices := true } cue = .nurse := rfl
    have hone : Sources.voiceOf { options with ignoreVoices := false } (cue.spokenBy voice) =
      voice := rfl
    rw [List.map_cons, emissions_cons, emissions_cons]
    simp only [Sources.step_eq, hall, hone, Source.step_ignoreVoices, h]
    -- Both sides have taken the same step, and the two voices are left in the same state.
    exact congrArg _ (ih (by rw [Sources.set_self, Sources.set_self]; rfl))

/-! ## Stops -/

/-- A pulse that ends the run is a stop and then a pulse that does not. -/
theorem Source.step_interruptible (source : Source α) (time : α) (count : Int) :
    let stopped := source.stop time
    let pulsed := stopped.1.step { options with interruptible := false } time (.pulse count)
    source.step { options with interruptible := true } time (.pulse count) =
      (pulsed.1, stopped.2 ++ pulsed.2) := rfl

/-- A cue with its stop does what the cue does where pulses end runs. -/
theorem run_withStop (options : Options) (sources : Sources α) (cue : Cue α) :
    states { options with interruptible := false } sources cue.withStop =
        (sources.step { options with interruptible := true } cue).1 ∧
      emissions { options with interruptible := false } sources cue.withStop =
        (sources.step { options with interruptible := true } cue).2 := by
  obtain ⟨time, kind, voice⟩ := cue
  cases kind with
  | pulse count =>
    -- The stop and the pulse count for one voice, whatever `ignoreVoices` says.
    have hv (flag : Bool) (kind : CueKind) :
        Sources.voiceOf { options with interruptible := flag } (⟨time, kind, voice⟩ : Cue α) =
          Sources.voiceOf options ⟨time, .stop, voice⟩ := rfl
    simp only [Cue.withStop, states_cons, states_nil, emissions_cons, emissions_nil,
      Emission.append_none, Sources.step_eq, hv, Sources.set_self, Sources.set_set,
      Source.step_interruptible]
    exact ⟨rfl, rfl⟩
  | _ =>
    simp only [Cue.withStop, states_cons, states_nil, emissions_cons, emissions_nil,
      Emission.append_none]
    exact ⟨rfl, rfl⟩

theorem emissions_withStop (sources : Sources α) (cues : List (Cue α)) :
    emissions { options with interruptible := true } sources cues =
      emissions { options with interruptible := false } sources (cues.flatMap Cue.withStop) := by
  induction cues generalizing sources with
  | nil => rfl
  | cons cue cues ih =>
    obtain ⟨hstates, hemissions⟩ := run_withStop options sources cue
    rw [List.flatMap_cons, emissions_append, hstates, hemissions, emissions_cons, ih]

/-! ## The result -/

theorem play_spokenBy (options : Options) (voice : Voice) (cues : List (Cue α)) :
    play { options with ignoreVoices := true } cues =
      play { options with ignoreVoices := false } (cues.map (·.spokenBy voice)) :=
  congrArg Playback.ofEmission (emissions_spokenBy voice cues rfl)

theorem play_withStop (options : Options) (cues : List (Cue α)) :
    play { options with interruptible := true } cues =
      play { options with interruptible := false } (cues.flatMap Cue.withStop) :=
  congrArg Playback.ofEmission (emissions_withStop .silent cues)

/-- Both options can be spelled out in the cues, each by itself and both together in either order;
what is reported is the same. -/
theorem play_spelled_out (options : Options) (voice : Voice) (cues : List (Cue α)) :
    let apart : Options := { options with ignoreVoices := false }
    let lasting : Options := { options with interruptible := false }
    let neither : Options := { options with ignoreVoices := false, interruptible := false }
    play { options with ignoreVoices := true } cues =
        play apart (cues.map (·.spokenBy voice)) ∧
      play { options with interruptible := true } cues =
        play lasting (cues.flatMap Cue.withStop) ∧
      play { options with ignoreVoices := true, interruptible := true } cues =
        play neither ((cues.map (·.spokenBy voice)).flatMap Cue.withStop) ∧
      play { options with ignoreVoices := true, interruptible := true } cues =
        play neither ((cues.flatMap Cue.withStop).map (·.spokenBy voice)) := by
  intro apart lasting neither
  have both : play { options with ignoreVoices := true, interruptible := true } cues =
      play neither ((cues.map (·.spokenBy voice)).flatMap Cue.withStop) :=
    (play_spokenBy { options with interruptible := true } voice cues).trans
      (play_withStop { options with ignoreVoices := false } _)
  refine ⟨play_spokenBy options voice cues, play_withStop options cues, both, ?_⟩
  rw [both, List.flatMap_map, List.map_flatMap]
  simp only [Cue.withStop_spokenBy]

end CueCheck
