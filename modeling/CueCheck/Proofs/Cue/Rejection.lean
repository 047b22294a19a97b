import CueCheck.Proofs.Cue.Pending
import CueCheck.Scalar.Binary64

/-!
# Rejected markers leave no trace but their finding

A go or a pulse whose pending markers lay out no pattern that it can use acts as if the markers had
never been there: the go as a bare one, the pulse not at all, or as the stop that comes with it.

- `Source.Rejects` says when markers are rejected; `step_go_of_rejects` and `step_pulse_of_rejects`
  say what is left of the step.
- `run_whenRejected` compares the step with what stands in for it once the markers are gone.
- `play_withoutRejected` carries the comparison over to whole lists of cues, whatever follows.
-/

namespace CueCheck

variable {α : Type} [Scalar α] {options : Options}

/-- The pending markers lay out no pattern that the cue can use: none at all, or for a pulse none
that is square. A go with nothing pending rejects nothing. -/
def Source.Rejects (source : Source α) (time : α) : CueKind → Prop
  | .go => source.pending ≠ [] ∧ Pattern.close source.pending time source.pattern = none
  | .pulse _ => ∀ pattern,
      Pattern.close source.pending time source.pattern = some pattern → pattern.squareshot = false
  | _ => False

/-- What stands in for a cue that rejects its markers, once they are gone: a go itself, and for a
pulse only the stop that it would bring along. -/
def Cue.whenRejected (options : Options) (cue : Cue α) : List (Cue α) :=
  match cue.kind with
  | .pulse _ => if options.interruptible then [{ cue with kind := .stop }] else []
  | _ => [cue]

namespace Source

variable {source : Source α} {time : α}

theorem step_go_of_rejects (options : Options) (h : source.Rejects time .go) :
    source.step options time .go =
      ({ source.cleared with start? := some time }, ⟨source.dueBeats time, [time]⟩) := by
  obtain ⟨hne, hclose⟩ := h
  have hp : source.pending.isEmpty = false := List.isEmpty_eq_false_iff.mpr hne
  have hc : source.confirmed time .go = Option.none := by
    simp only [confirmed, hp, Bool.false_eq_true, ↓reduceIte, hclose]
  simp only [step, go_eq, hc, hp]
  rfl

theorem step_pulse_of_rejects (options : Options) {count : Int}
    (h : source.Rejects time (.pulse count)) :
    source.step options time (.pulse count) =
      ({ source.cleared with
          start? := if options.interruptible then Option.none else source.start? },
       ⟨if options.interruptible then source.dueBeats time else [], [time]⟩) := by
  have hc : source.confirmed time (.pulse count) = Option.none := by
    rw [confirmed, Option.filter_eq_none_iff]
    intro pattern hp
    rw [h pattern hp]
    exact Bool.false_ne_true
  simp only [step_pulse, hc, Option.elim_none, List.append_nil]
  rfl

end Source

/-- The step of a cue that rejects its markers, next to what stands in for it. -/
theorem run_whenRejected (sources : Sources α) (cue : Cue α)
    (h : (sources (Sources.voiceOf options cue)).Rejects cue.time cue.kind) :
    let cleared := sources.cleared (Sources.voiceOf options cue)
    let stead := cue.whenRejected options
    states options cleared stead = (sources.step options cue).1 ∧
      (emissions options cleared stead).beats = (sources.step options cue).2.beats ∧
      (emissions options cleared stead).invalid = [] ∧
      (sources.step options cue).2.invalid = [cue.time] := by
  cases hk : cue.kind with
  | go =>
    rw [hk] at h
    simp only [Cue.whenRejected, hk, states_cons, states_nil, emissions_cons, emissions_nil,
      Emission.append_none, Sources.step_eq, Sources.cleared, Sources.set_self, Sources.set_set,
      Source.step_go_of_rejects options h]
    exact ⟨rfl, rfl, rfl, trivial⟩
  | pulse count =>
    rw [hk] at h
    have hstep := Source.step_pulse_of_rejects options h
    cases hi : options.interruptible with
    | true =>
      -- The stop counts for the same voice as the pulse.
      have hv : Sources.voiceOf options { cue with kind := .stop } = Sources.voiceOf options cue :=
        rfl
      simp only [Cue.whenRejected, hk, hi, ↓reduceIte, states_cons, states_nil, emissions_cons,
        emissions_nil, Emission.append_none, Sources.step_eq, hv, Sources.cleared,
        Sources.set_self, Sources.set_set, hstep]
      exact ⟨rfl, rfl, rfl, trivial⟩
    | false =>
      simp only [Cue.whenRejected, hk, hi, Bool.false_eq_true, ↓reduceIte, states_nil,
        emissions_nil, Sources.step_eq, hstep]
      exact ⟨rfl, rfl, rfl, trivial⟩
  | stop => rw [hk] at h; exact h.elim
  | get => rw [hk] at h; exact h.elim
  | set => rw [hk] at h; exact h.elim

/-- A go or a pulse that rejects its markers, and these with it, can be taken out of a list of cues
without a change to the expected beats. Of the invalid times only the one of that cue goes. -/
theorem play_withoutRejected (options : Options) (before after : List (Cue α)) (cue : Cue α)
    (rejected : (states options .silent before (Sources.voiceOf options cue)).Rejects cue.time
      cue.kind) :
    let whole := before ++ cue :: after
    let kept := withoutPending options (Sources.voiceOf options cue) before ++
      cue.whenRejected options ++ after
    (play options kept).expected = (play options whole).expected ∧
      ∃ later,
        (emissions options .silent whole).invalid =
          (emissions options .silent before).invalid ++ cue.time :: later ∧
        (emissions options .silent kept).invalid =
          (emissions options .silent before).invalid ++ later := by
  intro whole kept
  obtain ⟨hs, he⟩ := run_withoutPending options (Sources.voiceOf options cue) before
  obtain ⟨hstates, hbeats, hnone, hone⟩ := run_whenRejected _ cue rejected
  have hwhole : emissions options .silent whole = emissions options .silent before ++
      (((states options .silent before).step options cue).2 ++
        emissions options ((states options .silent before).step options cue).1 after) := by
    rw [emissions_append, emissions_cons]
  have hkept : emissions options .silent kept = emissions options .silent before ++
      (emissions options ((states options .silent before).cleared (Sources.voiceOf options cue))
          (cue.whenRejected options) ++
        emissions options ((states options .silent before).step options cue).1 after) := by
    rw [show kept = withoutPending options (Sources.voiceOf options cue) before ++
      (cue.whenRejected options ++ after) from List.append_assoc _ _ _, emissions_append,
      emissions_append, hs, he, hstates]
  refine ⟨?_, (emissions options ((states options .silent before).step options cue).1
    after).invalid, ?_, ?_⟩
  · have hb : (emissions options .silent kept).beats = (emissions options .silent whole).beats := by
      rw [hkept, hwhole]
      simp only [Emission.beats_append, hbeats]
    unfold play Playback.ofEmission
    rw [hb]
  · rw [hwhole]
    simp only [Emission.invalid_append, hone, List.singleton_append]
  · rw [hkept]
    simp only [Emission.invalid_append, hnone, List.nil_append]

/-- Two sets lay out nothing, so the go after them starts the pattern of the lone set again. -/
theorem play_withoutRejected_two_sets :
    let before : List (Cue Float) :=
      [⟨1, .set, .nurse⟩, ⟨2, .go, .nurse⟩, ⟨3, .set, .nurse⟩, ⟨4, .set, .nurse⟩]
    let after : List (Cue Float) := [⟨10, .stop, .nurse⟩]
    (states {} .silent before .nurse).Rejects 6 .go ∧
      (play {} (before.take 2 ++ ⟨6, .go, .nurse⟩ :: after)).expected =
        (play {} (before ++ ⟨6, .go, .nurse⟩ :: after)).expected := by
  intro before after
  have rejected : (states {} .silent before .nurse).Rejects 6 .go := by
    unfold Source.Rejects
    rw [pending_states]
    exact ⟨List.cons_ne_nil _ _, rfl⟩
  exact ⟨rejected, (play_withoutRejected {} before after ⟨6, .go, .nurse⟩ rejected).1⟩

end CueCheck
