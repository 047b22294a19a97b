import CueCheck.Cue.Playback

/-!
# What one cue does

Closed forms of the steps of a voice, over any scalars, so that later proofs need not open them.

- **Confirmation** (`Source.confirmed`): the pattern that a go or a pulse makes of the pending
  markers. `go_eq` and `pulse_eq` say what either does with it, in one expression each.
- **The effect on each part of the state**: `pending_step`, `start?_step`, `playing_step`,
  `pattern_step`.
- **Locality**: a cue changes the state of its own voice only (`step_of_ne`), and the states after
  a longer list are those after the shorter one and one more step (`states_concat`).
-/

namespace CueCheck

variable {α : Type} [Scalar α] {options : Options}

namespace CueKind

/-- The marker that a get or a set leaves. -/
def marker? : CueKind → Option MarkerKind
  | get => some .get
  | set => some .set
  | _ => none

/-- A go or a counted pulse closes the pending markers. -/
def closes : CueKind → Bool
  | go | pulse _ => true
  | _ => false

/-- A go or a stop ends the run in progress, and so does a pulse where runs are interruptible. -/
def endsRun (options : Options) : CueKind → Bool
  | go | stop => true
  | pulse _ => options.interruptible
  | _ => false

/-- What neither leaves a marker nor closes any is a stop. -/
theorem eq_stop {kind : CueKind} (hm : kind.marker? = none) (hc : kind.closes = false) :
    kind = stop := by
  cases kind with
  | get => cases hm
  | set => cases hm
  | go => cases hc
  | stop => rfl
  | pulse count => cases hc

end CueKind

namespace Source

/-- The pattern that a cue makes of the pending markers and starts or plays. A go confirms nothing
where none are pending, and a pulse confirms square patterns only. -/
def confirmed (source : Source α) (time : α) : CueKind → Option (Pattern α)
  | .go =>
    if source.pending.isEmpty then Option.none
    else Pattern.close source.pending time source.pattern
  | .pulse _ => (Pattern.close source.pending time source.pattern).filter (·.squareshot)
  | _ => Option.none

/-- What is confirmed is the pattern of the pending markers. -/
theorem close_of_confirmed {source : Source α} {time : α} {kind : CueKind} {pattern : Pattern α}
    (h : source.confirmed time kind = some pattern) :
    Pattern.close source.pending time source.pattern = some pattern := by
  unfold confirmed at h
  split at h
  · split at h
    · cases h
    · exact h
  · exact (Option.filter_eq_some_iff.mp h).1
  · cases h

theorem go_eq (source : Source α) (time : α) :
    source.go time =
      let pattern? := source.confirmed time .go
      ({ start? := some time, pattern := pattern?.getD source.pattern,
         playing := pattern?.getD source.playing, pending := [] },
       ⟨source.dueBeats time,
        if source.pending.isEmpty || pattern?.isSome then [] else [time]⟩) := by
  obtain ⟨start?, pattern, playing, pending⟩ := source
  unfold go confirmed close
  cases pending with
  | nil => rfl
  | cons m ms =>
    simp only [List.isEmpty_cons, Bool.false_eq_true, ↓reduceIte]
    cases Pattern.close (m :: ms) time pattern <;> rfl

theorem pulse_eq (triangles : Bool) (source : Source α) (time : α) (count : Int) :
    source.pulse triangles time count =
      let pattern? := source.confirmed time (.pulse count)
      ({ source with pattern := pattern?.getD source.pattern, pending := [] },
       ⟨pattern?.elim [] (squareBeats · time count triangles),
        if pattern?.isSome then [] else [time]⟩) := by
  unfold pulse confirmed close
  cases h : Pattern.close source.pending time source.pattern with
  | none => rfl
  | some pattern =>
    cases hs : pattern.squareshot <;>
      simp only [Option.filter_some, hs, Bool.false_eq_true, ↓reduceIte] <;> rfl

theorem stop_eq (source : Source α) (time : α) :
    source.stop time = ({ source with start? := Option.none }, ⟨source.dueBeats time, []⟩) := rfl

/-- A pulse as a cue, with the stop that comes before it where runs are interruptible. -/
theorem step_pulse (source : Source α) (time : α) (count : Int) :
    source.step options time (.pulse count) =
      let pattern? := source.confirmed time (.pulse count)
      ({ start? := if options.interruptible then Option.none else source.start?
         pattern := pattern?.getD source.pattern, playing := source.playing, pending := [] },
       ⟨(if options.interruptible then source.dueBeats time else []) ++
          pattern?.elim [] (squareBeats · time count options.triangles),
        if pattern?.isSome then [] else [time]⟩) := by
  unfold step
  cases options.interruptible with
  | true => simp only [↓reduceIte, stop_eq, pulse_eq]; rfl
  | false => simp only [Bool.false_eq_true, ↓reduceIte, pulse_eq, List.nil_append]

/-! ## The parts of the state -/

theorem pending_step (source : Source α) (time : α) (kind : CueKind) :
    (source.step options time kind).1.pending =
      if kind.closes then [] else source.pending ++ (kind.marker?.map (⟨·, time⟩)).toList := by
  cases kind with
  | go => simp only [step, go_eq]; rfl
  | pulse count => simp only [step_pulse]; rfl
  | stop => exact (List.append_nil _).symm
  | get => rfl
  | set => rfl

theorem start?_step (source : Source α) (time : α) (kind : CueKind) :
    (source.step options time kind).1.start? =
      if kind = .go then some time
      else if kind.endsRun options then Option.none else source.start? := by
  cases kind with
  | go => simp only [step, go_eq, ↓reduceIte]
  | pulse count => simp only [step_pulse, reduceCtorEq, ↓reduceIte]; rfl
  | stop => rfl
  | get => rfl
  | set => rfl

theorem playing_step (source : Source α) (time : α) (kind : CueKind) :
    (source.step options time kind).1.playing =
      if kind = .go then (source.confirmed time .go).getD source.playing else source.playing := by
  cases kind with
  | go => simp only [step, go_eq, ↓reduceIte]
  | pulse count => simp only [step_pulse, reduceCtorEq, ↓reduceIte]
  | stop => rfl
  | get => rfl
  | set => rfl

theorem pattern_step (source : Source α) (time : α) (kind : CueKind) :
    (source.step options time kind).1.pattern =
      (source.confirmed time kind).getD source.pattern := by
  cases kind with
  | go => simp only [step, go_eq]
  | pulse count => simp only [step_pulse]
  | stop => rfl
  | get => rfl
  | set => rfl

/-- The beats that a cue brings about: those due of the run that it ends, then those that it plays
itself. -/
theorem beats_step (source : Source α) (time : α) (kind : CueKind) :
    (source.step options time kind).2.beats =
      (if kind.endsRun options then source.dueBeats time else []) ++
        match kind with
        | .pulse count => (source.confirmed time kind).elim []
            (squareBeats · time count options.triangles)
        | _ => [] := by
  cases kind with
  | go => simp only [step, go_eq, CueKind.endsRun, ↓reduceIte, List.append_nil]
  | pulse count => simp only [step_pulse]; rfl
  | stop => exact (List.append_nil _).symm
  | get => rfl
  | set => rfl

/-- A cue finds no time invalid but its own. -/
theorem eq_of_mem_invalid_step {source : Source α} {time t : α} {kind : CueKind}
    (h : t ∈ (source.step options time kind).2.invalid) : t = time := by
  cases kind with
  | go =>
    simp only [step, go_eq] at h
    split at h
    · cases h
    · exact List.mem_singleton.mp h
  | pulse count =>
    simp only [step_pulse] at h
    split at h
    · cases h
    · exact List.mem_singleton.mp h
  | stop => cases h
  | get => cases h
  | set => cases h

end Source

/-! ## Voices and lists -/

namespace Sources

variable (sources : Sources α) (cue : Cue α)

section Set

omit [Scalar α]

variable {voice other : Voice} (source more : Source α)

@[simp] theorem set_self : sources.set voice source voice = source :=
  if_pos rfl

theorem set_of_ne (h : other ≠ voice) : sources.set voice source other = sources other :=
  if_neg h

@[simp] theorem set_set : (sources.set voice source).set voice more = sources.set voice more := by
  funext x
  by_cases hx : x = voice
  · subst hx; simp only [set_self]
  · simp only [set_of_ne _ _ hx]

theorem set_comm (h : other ≠ voice) :
    (sources.set voice source).set other more = (sources.set other more).set voice source := by
  funext x
  by_cases hx : x = voice
  · subst hx; rw [set_of_ne _ _ (Ne.symm h), set_self, set_self]
  · by_cases ho : x = other
    · subst ho; rw [set_self, set_of_ne _ _ hx, set_self]
    · rw [set_of_ne _ _ ho, set_of_ne _ _ hx, set_of_ne _ _ hx, set_of_ne _ _ ho]

@[simp] theorem set_eq_self : sources.set voice (sources voice) = sources := by
  funext x
  by_cases hx : x = voice
  · subst hx; exact set_self _ _
  · exact set_of_ne _ _ hx

end Set

theorem step_eq :
    sources.step options cue =
      let after := (sources (voiceOf options cue)).step options cue.time cue.kind
      (sources.set (voiceOf options cue) after.1, after.2) := rfl

theorem step_self :
    (sources.step options cue).1 (voiceOf options cue) =
      ((sources (voiceOf options cue)).step options cue.time cue.kind).1 :=
  set_self _ _

theorem step_of_ne {other : Voice} (h : other ≠ voiceOf options cue) :
    (sources.step options cue).1 other = sources other :=
  set_of_ne _ _ h

end Sources

@[simp] theorem Emission.append_none {α : Type} (a : Emission α) : a ++ none = a := by
  show Emission.mk _ _ = _
  simp only [none, List.append_nil]

@[simp] theorem states_nil (sources : Sources α) : states options sources [] = sources := rfl

theorem states_cons (sources : Sources α) (cue : Cue α) (cues : List (Cue α)) :
    states options sources (cue :: cues) = states options (sources.step options cue).1 cues := rfl

theorem states_append (sources : Sources α) (cues more : List (Cue α)) :
    states options sources (cues ++ more) = states options (states options sources cues) more :=
  List.foldl_append

theorem states_concat (sources : Sources α) (cues : List (Cue α)) (cue : Cue α) :
    states options sources (cues ++ [cue]) = ((states options sources cues).step options cue).1 :=
  states_append _ _ _

@[simp] theorem emissions_nil (sources : Sources α) : emissions options sources [] = .none := rfl

theorem emissions_cons (sources : Sources α) (cue : Cue α) (cues : List (Cue α)) :
    emissions options sources (cue :: cues) =
      (sources.step options cue).2 ++ emissions options (sources.step options cue).1 cues := rfl

theorem emissions_concat (sources : Sources α) (cues : List (Cue α)) (cue : Cue α) :
    emissions options sources (cues ++ [cue]) =
      emissions options sources cues ++ ((states options sources cues).step options cue).2 := by
  rw [emissions_append, emissions_cons, emissions_nil, Emission.append_none]

end CueCheck
