import CueCheck.Proofs.Cue.Step
import Mathlib.Data.List.DropRight
import Mathlib.Data.List.Induction

/-!
# Pending markers

What waits for the next go or pulse of a voice, read off the list of cues.

- **The list side**: `sinceClose` are the cues after the last go or pulse of the voice,
  `pendingMarkers` the markers among them that are the voice's own, and `withoutPending` is the
  whole list without these.
- **The state side**: after any list the state of each voice holds exactly its pending markers
  (`pending_states`). So an invariant of closing markers holds of all the patterns of a voice
  (`patterns_states`).
- **Removal** (`states_withoutPending`, `emissions_withoutPending`): without them the same beats
  and invalid times come about, and every state is the same but for the markers that are gone.
-/

namespace CueCheck

variable {α : Type} {options : Options} {voice : Voice}

/-- The cue is a go or a pulse that counts for the voice. -/
def Cue.closesFor (options : Options) (voice : Voice) (cue : Cue α) : Bool :=
  Sources.voiceOf options cue == voice && cue.kind.closes

/-- The marker that the cue leaves with the voice. -/
def Cue.marker? (options : Options) (voice : Voice) (cue : Cue α) : Option (Marker α) :=
  if Sources.voiceOf options cue = voice then cue.kind.marker?.map (⟨·, cue.time⟩) else none

/-- The cues after the last go or pulse of a voice. -/
def sinceClose (options : Options) (voice : Voice) (cues : List (Cue α)) : List (Cue α) :=
  cues.rtakeWhile (!·.closesFor options voice)

/-- The cues up to the last go or pulse of a voice. -/
def untilClose (options : Options) (voice : Voice) (cues : List (Cue α)) : List (Cue α) :=
  cues.rdropWhile (!·.closesFor options voice)

/-- The markers of a voice since its last go or pulse, in order. -/
def pendingMarkers (options : Options) (voice : Voice) (cues : List (Cue α)) : List (Marker α) :=
  (sinceClose options voice cues).filterMap (·.marker? options voice)

/-- The cues but for the gets and sets of a voice since its last go or pulse. -/
def withoutPending (options : Options) (voice : Voice) (cues : List (Cue α)) : List (Cue α) :=
  untilClose options voice cues ++
    (sinceClose options voice cues).filter fun cue => (cue.marker? options voice).isNone

theorem pendingMarkers_concat (cues : List (Cue α)) (cue : Cue α) :
    pendingMarkers options voice (cues ++ [cue]) =
      if cue.closesFor options voice then []
      else pendingMarkers options voice cues ++ (cue.marker? options voice).toList := by
  unfold pendingMarkers sinceClose
  rw [List.rtakeWhile_concat]
  cases cue.closesFor options voice with
  | true => rfl
  | false =>
    simp only [Bool.not_false, ↓reduceIte, Bool.false_eq_true, List.filterMap_append]
    cases h : cue.marker? options voice <;> simp [h]

theorem withoutPending_concat (cues : List (Cue α)) (cue : Cue α) :
    withoutPending options voice (cues ++ [cue]) =
      if cue.closesFor options voice then cues ++ [cue]
      else withoutPending options voice cues ++
        if (cue.marker? options voice).isNone then [cue] else [] := by
  unfold withoutPending sinceClose untilClose
  rw [List.rtakeWhile_concat, List.rdropWhile_concat]
  cases cue.closesFor options voice with
  | true => exact List.append_nil _
  | false =>
    simp only [Bool.not_false, ↓reduceIte, Bool.false_eq_true, List.filter_append,
      List.append_assoc]
    congr 2
    cases h : cue.marker? options voice <;> simp [h]

variable [Scalar α]

/-- The state of a voice holds exactly its markers since its last go or pulse. -/
theorem pending_states (options : Options) (cues : List (Cue α)) (voice : Voice) :
    (states options .silent cues voice).pending = pendingMarkers options voice cues := by
  induction cues using List.reverseRecOn with
  | nil => rfl
  | append_singleton cues cue ih =>
    rw [states_concat, pendingMarkers_concat, ← ih]
    unfold Cue.closesFor Cue.marker?
    by_cases hv : voice = Sources.voiceOf options cue
    · subst hv
      rw [Sources.step_self, Source.pending_step]
      simp only [BEq.rfl, Bool.true_and, ↓reduceIte]
    · rw [Sources.step_of_ne _ _ hv, if_neg (Ne.symm hv)]
      simp only [beq_eq_false_iff_ne.mpr (Ne.symm hv), Bool.false_and, Bool.false_eq_true,
        ↓reduceIte, Option.toList_none, List.append_nil]

theorem time_of_marker? {α : Type} {cue : Cue α} {m : Marker α}
    (h : cue.marker? options voice = some m) : m.time = cue.time := by
  unfold Cue.marker? at h
  split at h
  · obtain ⟨kind, -, rfl⟩ := Option.map_eq_some_iff.mp h
    rfl
  · cases h

omit [Scalar α] in
theorem exists_cue_of_mem_pendingMarkers {cues : List (Cue α)} {m : Marker α}
    (h : m ∈ pendingMarkers options voice cues) : ∃ cue ∈ cues, cue.time = m.time := by
  obtain ⟨cue, hc, hm⟩ := List.mem_filterMap.mp h
  exact ⟨cue, (List.rtakeWhile_suffix _ _).subset hc, (time_of_marker? hm).symm⟩

omit [Scalar α] in
theorem length_pendingMarkers_le (cues : List (Cue α)) :
    (pendingMarkers options voice cues).length ≤ cues.length :=
  (List.length_filterMap_le _ _).trans (List.rtakeWhile_suffix _ _).length_le

/-- What holds of the empty pattern, and passes from a pattern to the one that pending markers make
after it, holds of all that a voice confirms and plays. -/
theorem patterns_states {P : Pattern α → Prop} {cues : List (Cue α)} (empty : P .empty)
    (closed : ∀ before cue, before ++ [cue] <+: cues → ∀ previous pattern, P previous →
      Pattern.close (pendingMarkers options voice before) cue.time previous = some pattern →
        P pattern) :
    P (states options .silent cues voice).pattern ∧
      P (states options .silent cues voice).playing := by
  induction cues using List.reverseRecOn with
  | nil => exact ⟨empty, empty⟩
  | append_singleton cues cue ih =>
    obtain ⟨hpattern, hplaying⟩ := ih fun before next hb =>
      closed before next (hb.trans (List.prefix_append _ _))
    rw [states_concat]
    by_cases hv : voice = Sources.voiceOf options cue
    · have confirms {kind : CueKind} {pattern : Pattern α}
          (h : (states options .silent cues voice).confirmed cue.time kind = some pattern) :
          P pattern := by
        have hclose := Source.close_of_confirmed h
        rw [pending_states] at hclose
        exact closed cues cue (List.prefix_refl _) _ _ hpattern hclose
      subst hv
      rw [Sources.step_self, Source.pattern_step, Source.playing_step]
      refine ⟨?_, ?_⟩
      · cases hc : (states options .silent cues (Sources.voiceOf options cue)).confirmed
            cue.time cue.kind with
        | none => exact hpattern
        | some pattern => exact confirms hc
      · split
        · cases hc : (states options .silent cues (Sources.voiceOf options cue)).confirmed
              cue.time .go with
          | none => exact hplaying
          | some pattern => exact confirms hc
        · exact hplaying
    · rw [Sources.step_of_ne _ _ hv]
      exact ⟨hpattern, hplaying⟩

/-! ## Removal -/

/-- The state with no markers pending. -/
def Source.cleared (source : Source α) : Source α :=
  { source with pending := [] }

/-- The states with no markers pending for a voice. -/
def Sources.cleared (sources : Sources α) (voice : Voice) : Sources α :=
  sources.set voice (sources voice).cleared

omit [Scalar α] in
theorem Source.cleared_of_pending_eq_nil {source : Source α} (h : source.pending = []) :
    source.cleared = source := by
  cases source
  cases h
  rfl

omit [Scalar α] in
theorem Sources.cleared_of_pending_eq_nil {sources : Sources α} (h : (sources voice).pending = []) :
    sources.cleared voice = sources := by
  rw [cleared, Source.cleared_of_pending_eq_nil h, set_eq_self]

/-- A marker is all that its cue leaves. -/
theorem Source.step_of_marker (options : Options) (source : Source α) (time : α) {kind : CueKind}
    (h : kind.marker?.isSome = true) :
    (source.step options time kind).1.cleared = source.cleared ∧
      (source.step options time kind).2 = .none := by
  cases kind with
  | get => exact ⟨rfl, rfl⟩
  | set => exact ⟨rfl, rfl⟩
  | go => cases h
  | stop => cases h
  | pulse count => cases h

theorem Sources.step_of_marker (sources : Sources α) {cue : Cue α}
    (h : (cue.marker? options voice).isSome = true) :
    (sources.step options cue).1.cleared voice = sources.cleared voice ∧
      (sources.step options cue).2 = .none := by
  unfold Cue.marker? at h
  split at h
  · rename_i hv
    subst hv
    rw [Option.isSome_map] at h
    obtain ⟨hs, he⟩ := Source.step_of_marker options (sources (voiceOf options cue)) cue.time h
    simp only [step_eq, cleared, set_self, set_set, hs, he, and_self]
  · cases h

/-- A cue that neither leaves a marker with the voice nor closes any does not look at them. -/
theorem Sources.step_cleared (sources : Sources α) {cue : Cue α}
    (hm : cue.marker? options voice = none) (hc : cue.closesFor options voice = false) :
    (sources.cleared voice).step options cue =
      ((sources.step options cue).1.cleared voice, (sources.step options cue).2) := by
  by_cases hv : voiceOf options cue = voice
  · have hstop : cue.kind = .stop := by
      unfold Cue.marker? at hm
      unfold Cue.closesFor at hc
      rw [if_pos hv, Option.map_eq_none_iff] at hm
      rw [beq_iff_eq.mpr hv, Bool.true_and] at hc
      exact CueKind.eq_stop hm hc
    subst hv
    simp only [step_eq, cleared, set_self, set_set, hstop]
    rfl
  · simp only [step_eq, cleared, set_of_ne _ _ hv, set_of_ne _ _ (Ne.symm hv)]
    rw [set_comm _ _ _ hv]

/-- Without the pending markers of a voice, the same comes about and nothing else is left. -/
theorem run_withoutPending (options : Options) (voice : Voice) (cues : List (Cue α)) :
    states options .silent (withoutPending options voice cues) =
        (states options .silent cues).cleared voice ∧
      emissions options .silent (withoutPending options voice cues) =
        emissions options .silent cues := by
  induction cues using List.reverseRecOn with
  | nil => exact ⟨(Sources.cleared_of_pending_eq_nil rfl).symm, rfl⟩
  | append_singleton cues cue ih =>
    obtain ⟨ihs, ihe⟩ := ih
    rw [withoutPending_concat]
    split
    · rename_i hc
      refine ⟨(Sources.cleared_of_pending_eq_nil ?_).symm, rfl⟩
      rw [pending_states, pendingMarkers_concat, if_pos hc]
    · rename_i hc
      rw [Bool.not_eq_true] at hc
      split
      · rename_i hm
        have hstep := Sources.step_cleared (states options .silent cues)
          (Option.isNone_iff_eq_none.mp hm) hc
        rw [states_concat, emissions_concat, states_concat, emissions_concat, ihs, ihe, hstep]
        exact ⟨rfl, rfl⟩
      · rename_i hm
        obtain ⟨hs, he⟩ := Sources.step_of_marker (states options .silent cues)
          (by simpa [Option.isSome_iff_ne_none] using hm)
        rw [List.append_nil, states_concat, emissions_concat, hs, he, ihs, ihe,
          Emission.append_none]
        exact ⟨rfl, rfl⟩

end CueCheck
