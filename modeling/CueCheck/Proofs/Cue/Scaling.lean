import CueCheck.Proofs.Cue.Order
import CueCheck.Proofs.Cue.Step
import CueCheck.Proofs.Scaling

/-!
# Cues in another unit

Over exact rationals, cues whose times are measured in another unit ask for the same beats in that
unit.

- **Patterns** (`Pattern.close_scale`): a period of some offsets is one of the scaled offsets, and
  every test of the markers is homogeneous, so scaled markers lay out the scaled pattern.
- **Runs** (`Run.beats_scale`, `squareBeats_scale`): each beat is scaled, and the same beats are
  due.
- **Steps** (`Source.step_scale`) and **lists** (`emissions_scale`): scaling commutes with every
  cue, so it commutes with a list of cues. `play_scale` is the same of what is reported.
-/

namespace CueCheck

open Scalar (exact less ofInt)

/-! ## Records with other times -/

section Map

variable {α β : Type}

/-- A cue with another reading of its time. -/
def Cue.map (f : α → β) (cue : Cue α) : Cue β where
  time := f cue.time
  kind := cue.kind
  voice := cue.voice

/-- A marker with another reading of its time. -/
def Marker.map (f : α → β) (marker : Marker α) : Marker β :=
  ⟨marker.kind, f marker.time⟩

/-- A pattern with another reading of its interval and offsets. -/
def Pattern.map (f : α → β) (pattern : Pattern α) : Pattern β where
  interval := f pattern.interval
  offsets := pattern.offsets.map f
  squareshot := pattern.squareshot

/-- A run with another reading of its times. -/
def Run.map (f : α → β) (run : Run α) : Run β :=
  ⟨f run.start, run.pattern.map f⟩

/-- The state of a voice with another reading of its times. -/
def Source.map (f : α → β) (source : Source α) : Source β where
  start? := source.start?.map f
  pattern := source.pattern.map f
  playing := source.playing.map f
  pending := source.pending.map (·.map f)

/-- What cues bring about with another reading of the times. -/
def Emission.map (f : α → β) (emission : Emission α) : Emission β where
  beats := emission.beats.map (·.map f)
  invalid := emission.invalid.map f

/-- What cues ask for with another reading of the times. -/
def Playback.map (f : α → β) (playback : Playback α) : Playback β where
  expected := playback.expected.map (·.map f)
  invalid := playback.invalid.map f

theorem Emission.map_append (f : α → β) (a b : Emission α) :
    (a ++ b).map f = a.map f ++ b.map f := by
  show Emission.mk _ _ = Emission.mk _ _
  rw [Emission.beats_append, Emission.invalid_append, List.map_append, List.map_append]
  rfl

end Map

variable {c : Rat}

/-! ## Patterns -/

theorem repetitionLength_scale (length : Rat) (size n : Nat) :
    repetitionLength (c * length) size n = c * repetitionLength length size n := by
  show c * length * (size : Int) / (n : Int) = c * (length * (size : Int) / (n : Int))
  ring

/-- The same beats recur. -/
theorem recurs_scale (hc : 0 < c) (offsets : List Rat) (size : Nat) (interval : Rat) :
    recurs (offsets.map (c * ·)) size (c * interval) = recurs offsets size interval := by
  funext i
  unfold recurs
  rw [List.getElem?_map, List.getElem?_map]
  cases offsets[i]? with
  | none => rfl
  | some offset =>
    cases offsets[i % size]? with
    | none => rfl
    | some model =>
      have later : c * model + ((i / size : Nat) : Int) * (c * interval) =
          c * (model + ((i / size : Nat) : Int) * interval) := by ring
      exact (congrArg _ later).trans (almostEqual_scale hc offset _)

theorem isPeriod_scale (hc : 0 < c) (offsets : List Rat) (length : Rat) :
    isPeriod (offsets.map (c * ·)) (c * length) = isPeriod offsets length := by
  funext size
  unfold isPeriod
  simp only [List.length_map, repetitionLength_scale, recurs_scale hc]

theorem period_scale (hc : 0 < c) (offsets : List Rat) (length : Rat) :
    period (offsets.map (c * ·)) (c * length) = period offsets length := by
  unfold period
  rw [isPeriod_scale hc, List.length_map]

namespace Pattern

theorem endsAtStart_scale (hc : 0 < c) (start stop : Rat) :
    endsAtStart (c * start) (c * stop) = endsAtStart start stop := by
  have sign : c * stop - c * start ≤ 0 ↔ stop - start ≤ 0 := by
    rw [← mul_sub]
    simpa only [mul_zero] using mul_le_mul_iff_right₀ (b := stop - start) (c := 0) hc
  unfold endsAtStart
  rw [almostEqual_scale hc]
  exact congrArg (· || _) (decide_eq_decide.mpr sign)

theorem offsetsOf_scale (kind : MarkerKind) (start : Rat) (pending : List (Marker Rat)) :
    offsetsOf kind (c * start) (pending.map (·.map (c * ·))) =
      (offsetsOf kind start pending).map (c * ·) := by
  unfold offsetsOf
  rw [List.filter_map]
  exact map_map_comm (fun m => (mul_sub c m.time start).symm) _

theorem ofLoneSet_scale (hc : 0 < c) (start stop : Rat) :
    ofLoneSet (c * start) (c * stop) = (ofLoneSet start stop).map (·.map (c * ·)) := by
  unfold ofLoneSet
  rw [endsAtStart_scale hc]
  cases endsAtStart start stop with
  | true => rfl
  | false =>
    have distance : c * stop - c * start = c * (stop - start) := (mul_sub c stop start).symm
    have twice : (2 : Rat) * (c * (stop - start)) = c * (2 * (stop - start)) := by ring
    show some (Pattern.mk (2 * (c * stop - c * start)) [c * stop - c * start] true) = _
    rw [distance, twice]
    rfl

/-- The gets stand on the same repetitions. -/
theorem onRepetitions_scale (hc : 0 < c) (gets : List Rat) (interval : Rat) :
    ((gets.map (c * ·)).zipIdx.all fun (offset, i) =>
        almostEqual offset (ofInt i * (c * interval))) =
      gets.zipIdx.all fun (offset, i) => almostEqual offset (ofInt i * interval) := by
  rw [List.zipIdx_map, List.all_map]
  congr 1
  funext ⟨offset, i⟩
  have later : (i : Int) * (c * interval) = c * ((i : Int) * interval) := by ring
  exact (congrArg _ later).trans (almostEqual_scale hc offset _)

theorem ofMarkers_scale (hc : 0 < c) (start stop : Rat) (pending : List (Marker Rat)) :
    ofMarkers (c * start) (c * stop) (pending.map (·.map (c * ·))) =
      (ofMarkers start stop pending).map (·.map (c * ·)) := by
  have distance : c * stop - c * start = c * (stop - start) := (mul_sub c stop start).symm
  have atStart : ((pending.map (·.map (c * ·))).any fun m =>
      m.kind == .set && almostEqual m.time (c * start)) =
      pending.any fun m => m.kind == .set && almostEqual m.time start := by
    rw [List.any_map]
    congr 1
    funext m
    exact congrArg _ (almostEqual_scale hc m.time start)
  unfold ofMarkers
  rw [endsAtStart_scale hc, atStart]
  split
  · rfl
  split
  · rfl
  simp only [offsetsOf_scale, List.isEmpty_map, List.length_map, distance, period_scale hc,
    repetitionLength_scale, onRepetitions_scale hc, ← List.map_take]
  split <;> rfl

/-- Scaled markers, closed at the scaled time, lay out the scaled pattern or none. -/
theorem close_scale (hc : 0 < c) (pending : List (Marker Rat)) (time : Rat)
    (previous : Pattern Rat) :
    close (pending.map (·.map (c * ·))) (c * time) (previous.map (c * ·)) =
      (close pending time previous).map (·.map (c * ·)) := by
  match pending with
  | [] =>
    show (if less Scalar.zero (c * previous.interval) then _ else _) = _
    rw [zero_less_scale hc]
    unfold close
    split <;> rfl
  | [⟨.set, start⟩] => exact ofLoneSet_scale hc start time
  | ⟨.set, _⟩ :: _ :: _ => rfl
  | ⟨.get, start⟩ :: rest => exact ofMarkers_scale hc start time (⟨.get, start⟩ :: rest)

theorem isPlayable_scale (hc : 0 < c) (pattern : Pattern Rat) :
    (pattern.map (c * ·)).isPlayable = pattern.isPlayable := by
  show (less Scalar.zero (c * pattern.interval) && !(pattern.offsets.map _).isEmpty) = _
  rw [zero_less_scale hc, List.isEmpty_map]
  rfl

end Pattern

/-! ## Runs -/

namespace Run

theorem term_scale (run : Run Rat) (k : Nat) : (run.map (c * ·)).term k = c * run.term k := by
  have offset (i : Nat) : (run.pattern.offsets.map (c * ·)).getD i 0 =
      c * run.pattern.offsets.getD i 0 := by
    rw [List.getD_eq_getElem?_getD, List.getD_eq_getElem?_getD, List.getElem?_map]
    cases run.pattern.offsets[i]? with
    | none => exact (mul_zero c).symm
    | some x => rfl
  show c * run.start + ((k / (run.pattern.offsets.map (c * ·)).length : Nat) : Int) *
      (c * run.pattern.interval) + (run.pattern.offsets.map (c * ·)).getD
        (k % (run.pattern.offsets.map (c * ·)).length) 0 =
    c * (run.start + ((k / run.pattern.offsets.length : Nat) : Int) * run.pattern.interval +
      run.pattern.offsets.getD (k % run.pattern.offsets.length) 0)
  rw [List.length_map, offset]
  ring

theorem isDue_scale (hc : 0 < c) (run : Run Rat) (stop : Rat) (k : Nat) :
    (run.map (c * ·)).isDue (c * stop) k = run.isDue stop k := by
  unfold isDue
  rw [term_scale, less_scale hc, almostEqual_scale hc]

theorem beat_scale (run : Run Rat) (k : Nat) :
    (run.map (c * ·)).beat k = (run.beat k).map (c * ·) := by
  unfold beat
  simp only [term_scale]
  cases k <;> rfl

theorem beatsFrom_scale (hc : 0 < c) (run : Run Rat) (stop : Rat) (k limit : Nat) :
    (run.map (c * ·)).beatsFrom (c * stop) k limit =
      (run.beatsFrom stop k limit).map (·.map (c * ·)) := by
  induction limit generalizing k with
  | zero => rfl
  | succ limit ih =>
    unfold beatsFrom
    rw [isDue_scale hc, beat_scale, ih]
    split <;> rfl

theorem size_scale (hc : 0 < c) (x : Rat) : size (c * x) = c * size x :=
  abs_scale hc x

theorem largest_scale (hc : 0 < c) (sizes : List Rat) :
    largest (sizes.map (c * ·)) = c * largest sizes := by
  have folded (start : Rat) (rest : List Rat) :
      (rest.map (c * ·)).foldl (fun x y => if x < y then y else x) (c * start) =
        c * rest.foldl (fun x y => if x < y then y else x) start := by
    induction rest generalizing start with
    | nil => rfl
    | cons size rest ih =>
      rw [List.map_cons, List.foldl_cons, List.foldl_cons, ← ih]
      simp only [mul_lt_mul_iff_right₀ hc, mul_ite]
  unfold largest
  rw [← folded, mul_zero]

/-- The sizes of a run keep their ratios, so it ends after the same number of beats. -/
theorem horizon_scale (hc : 0 < c) (run : Run Rat) (stop : Rat) :
    (run.map (c * ·)).horizon (c * stop) = run.horizon stop := by
  have sizes : (run.pattern.offsets.map (c * ·)).map size =
      (run.pattern.offsets.map size).map (c * ·) :=
    map_map_comm (size_scale hc) run.pattern.offsets
  have reach (a b d : Rat) : 4 * (c * a + c * b + c * d) = c * (4 * (a + b + d)) := by ring
  unfold horizon
  show (run.pattern.offsets.map (c * ·)).length * ((4 * (size (c * run.start) + size (c * stop) +
    largest ((run.pattern.offsets.map (c * ·)).map size)) /
      size (c * run.pattern.interval)).ceil.toNat + 2) = _
  rw [List.length_map, sizes, largest_scale hc, size_scale hc, size_scale hc, size_scale hc, reach,
    mul_div_mul_left _ _ hc.ne']

/-- A scaled run has the same beats up to the scaled end, scaled. -/
theorem beats_scale (hc : 0 < c) (run : Run Rat) (stop : Rat) :
    (run.map (c * ·)).beats (c * stop) = (run.beats stop).map (·.map (c * ·)) := by
  unfold beats firstBeats
  rw [horizon_scale hc, beatsFrom_scale hc]
  show (if (run.pattern.map (c * ·)).isPlayable then _ else _) = _
  rw [Pattern.isPlayable_scale hc]
  split <;> rfl

end Run

theorem squareBeats_scale (hc : 0 < c) (pattern : Pattern Rat) (time : Rat) (count : Int)
    (triangles : Bool) :
    squareBeats (pattern.map (c * ·)) (c * time) count triangles =
      (squareBeats pattern time count triangles).map (·.map (c * ·)) := by
  have later (tick factor : Rat) : c * time + c * tick * factor = c * (time + tick * factor) := by
    ring
  unfold squareBeats
  rw [Pattern.isPlayable_scale hc]
  obtain ⟨interval, offsets, squareshot⟩ := pattern
  cases Pattern.isPlayable ⟨interval, offsets, squareshot⟩ with
  | false => rfl
  | true =>
    cases offsets with
    | nil => rfl
    | cons tick offsets =>
      show (if _ then _ else _) = List.map _ (if _ then _ else _)
      split
      · rw [List.map_map]
        exact List.map_congr_left fun i _ => congrArg (ExpectedBeat.mk · none none) (later _ _)
      · rw [List.map_map]
        exact List.map_congr_left fun i _ => congrArg (ExpectedBeat.mk · none none) (later _ _)

/-! ## Steps -/

namespace Source

theorem dueBeats_scale (hc : 0 < c) (source : Source Rat) (time : Rat) :
    (source.map (c * ·)).dueBeats (c * time) = (source.dueBeats time).map (·.map (c * ·)) := by
  obtain ⟨start?, pattern, playing, pending⟩ := source
  cases start? with
  | none => rfl
  | some start => exact Run.beats_scale hc ⟨start, playing⟩ time

/-- Scaled markers confirm the scaled pattern. -/
theorem confirmed_scale (hc : 0 < c) (source : Source Rat) (time : Rat) (kind : CueKind) :
    (source.map (c * ·)).confirmed (c * time) kind =
      (source.confirmed time kind).map (·.map (c * ·)) := by
  have closed := Pattern.close_scale hc source.pending time source.pattern
  cases kind with
  | go =>
    show (if (source.pending.map _).isEmpty then _
      else Pattern.close (source.pending.map _) _ _) = _
    rw [List.isEmpty_map]
    unfold confirmed
    split
    · rfl
    · exact closed
  | pulse count =>
    show (Pattern.close (source.pending.map _) _ (source.pattern.map _)).filter _ =
      ((Pattern.close source.pending time source.pattern).filter _).map _
    rw [closed]
    cases Pattern.close source.pending time source.pattern with
    | none => rfl
    | some pattern =>
      obtain ⟨interval, offsets, squareshot⟩ := pattern
      cases squareshot <;> rfl
  | _ => rfl

/-- Scaling commutes with every cue. -/
theorem step_scale (hc : 0 < c) (options : Options) (source : Source Rat) (time : Rat)
    (kind : CueKind) :
    (source.map (c * ·)).step options (c * time) kind =
      ((source.step options time kind).1.map (c * ·),
        (source.step options time kind).2.map (c * ·)) := by
  have confirmed := confirmed_scale hc source time kind
  have due := dueBeats_scale hc source time
  cases kind with
  | get =>
    show (mark _ _ _, Emission.none) = ((mark _ _ _).map _, Emission.none.map _)
    unfold mark Source.map
    rw [List.map_append]
    rfl
  | set =>
    show (mark _ _ _, Emission.none) = ((mark _ _ _).map _, Emission.none.map _)
    unfold mark Source.map
    rw [List.map_append]
    rfl
  | stop =>
    show (_, Emission.mk ((source.map _).dueBeats _) []) = _
    rw [due]
    rfl
  | go =>
    show (source.map _).go _ = ((source.go _).1.map _, (source.go _).2.map _)
    rw [go_eq, go_eq, due]
    simp only [confirmed]
    generalize source.confirmed time .go = pattern?
    obtain ⟨start?, pattern, playing, pending⟩ := source
    cases pattern? <;> cases pending <;> rfl
  | pulse count =>
    rw [step_pulse, step_pulse, due]
    simp only [confirmed]
    generalize source.confirmed time (.pulse count) = pattern?
    cases pattern? with
    | none => cases options.interruptible <;> simp [Source.map, Emission.map]
    | some pattern =>
      have played := squareBeats_scale hc pattern time count options.triangles
      cases options.interruptible <;> simp [Source.map, Emission.map, played]

end Source

/-! ## Lists of cues -/

/-- The states of the voices with other times. -/
def Sources.map {α β : Type} (f : α → β) (sources : Sources α) : Sources β :=
  fun voice => (sources voice).map f

theorem Sources.step_scale (hc : 0 < c) (options : Options) (sources : Sources Rat)
    (cue : Cue Rat) :
    (sources.map (c * ·)).step options (cue.map (c * ·)) =
      ((sources.step options cue).1.map (c * ·), (sources.step options cue).2.map (c * ·)) := by
  have stepped := Source.step_scale hc options (sources (voiceOf options cue)) cue.time cue.kind
  have set (voice : Voice) (source : Source Rat) :
      (sources.map (c * ·)).set voice (source.map (c * ·)) =
        (sources.set voice source).map (c * ·) := by
    funext other
    show (if other = voice then source.map _ else (sources other).map _) =
      (if other = voice then source else sources other).map _
    split <;> rfl
  have own : voiceOf options (cue.map (c * ·)) = voiceOf options cue := rfl
  rw [step_eq, step_eq, own]
  show (Sources.set _ _ ((Source.map _ _).step _ (c * cue.time) cue.kind).1,
    ((Source.map _ _).step _ (c * cue.time) cue.kind).2) = _
  rw [stepped, set]

/-- Scaled cues bring about the same, scaled. -/
theorem emissions_scale (hc : 0 < c) (options : Options) (sources : Sources Rat)
    (cues : List (Cue Rat)) :
    emissions options (sources.map (c * ·)) (cues.map (·.map (c * ·))) =
      (emissions options sources cues).map (c * ·) := by
  induction cues generalizing sources with
  | nil => rfl
  | cons cue cues ih =>
    rw [List.map_cons, emissions_cons, emissions_cons, Sources.step_scale hc, ih,
      Emission.map_append]

/-! ## Reports -/

namespace ExpectedBeat

theorem precedes_scale (hc : 0 < c) (a b : ExpectedBeat Rat) :
    (a.map (c * ·)).precedes (b.map (c * ·)) = a.precedes b := by
  have ties (x y : Option Rat) :
      neighbourTies (x.map (c * ·)) (y.map (c * ·)) = neighbourTies x y := by
    cases x <;> cases y <;> first | rfl | exact beq_scale hc _ _
  have less (x y : Option Rat) :
      neighbourLess (x.map (c * ·)) (y.map (c * ·)) = neighbourLess x y := by
    cases x <;> cases y <;> first | rfl | exact less_scale hc _ _
  unfold precedes ExpectedBeat.map
  simp only [beq_scale hc, less_scale hc, ties, less]

theorem same_scale (hc : 0 < c) (a b : ExpectedBeat Rat) :
    (a.map (c * ·)).same (b.map (c * ·)) = a.same b := by
  have neighbour (x y : Option Rat) :
      sameNeighbour (x.map (c * ·)) (y.map (c * ·)) = sameNeighbour x y := by
    cases x <;> cases y <;> first | rfl | exact almostEqual_scale hc _ _
  unfold same ExpectedBeat.map
  simp only [almostEqual_scale hc, neighbour]

end ExpectedBeat

/-- Scaled cues play the same, scaled. -/
theorem play_scale (hc : 0 < c) (options : Options) (cues : List (Cue Rat)) :
    play options (cues.map (·.map (c * ·))) = (play options cues).map (c * ·) := by
  have silent : (Sources.silent : Sources Rat).map (c * ·) = .silent := by
    funext voice
    show Source.mk none ⟨c * 0, [], false⟩ ⟨c * 0, [], false⟩ [] = _
    rw [mul_zero]
    rfl
  unfold play
  conv => lhs; rw [← silent]
  rw [emissions_scale hc]
  unfold Playback.ofEmission Playback.map Emission.map
  simp only
  rw [sortBy_map (ExpectedBeat.precedes_scale hc), collapseBy_map (ExpectedBeat.same_scale hc),
    sortedTimes_scale hc]

end CueCheck
