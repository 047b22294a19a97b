import CueCheck.Proofs.Cue.Reachable

/-!
# The period of a pattern

Over exact rationals, a pattern repeats in the least number of beats that recur.

- **Periods** (`RecurBy`, `isPeriod_iff`, `period_le_of_isPeriod`): beats recur if each lies whole
  intervals after one of the first repetition, up to tolerance. The period is the least divisor at
  which they do.
- **Rejections** (`Pattern.Rejects`, `Pattern.close_eq_none_iff`): why markers lay out no pattern.
- **Exact repetitions** (`Pattern.repetitions`, `Pattern.recurBy_repetitions`): beats that come in
  equal groups recur group by group.
- **The result** (`Pattern.close_least_period`): all of this for the pattern of any markers.
-/

namespace CueCheck

/-! ## Periods -/

theorem mem_divisors {n d : Nat} (hn : 0 < n) : d ∈ divisors n ↔ d ∣ n := by
  unfold divisors
  rw [List.mem_filter, List.mem_range'_1, beq_iff_eq, ← Nat.dvd_iff_mod_eq_zero]
  constructor
  · exact fun h => h.2
  · intro h
    have := Nat.pos_of_dvd_of_pos h hn
    have := Nat.le_of_dvd hn h
    exact ⟨by omega, h⟩

theorem pairwise_divisors (n : Nat) : (divisors n).Pairwise (· < ·) :=
  List.Pairwise.filter _ List.pairwise_lt_range'

/-- No lesser divisor is a period. -/
theorem period_le_of_isPeriod {α : Type} [Scalar α] {offsets : List α} {length : α} {d : Nat}
    (hne : offsets ≠ []) (hd : d ∣ offsets.length) (h : isPeriod offsets length d = true) :
    period offsets length ≤ d := by
  have hmem := (mem_divisors (List.length_pos_iff.mpr hne)).mpr hd
  unfold period
  cases hfind : (divisors offsets.length).find? (isPeriod offsets length) with
  | none => exact absurd h (List.find?_eq_none.mp hfind d hmem)
  | some size =>
    obtain ⟨-, before, after, hsplit, hbefore⟩ := List.find?_eq_some_iff_append.mp hfind
    have ordered := pairwise_divisors offsets.length
    rw [hsplit] at hmem ordered
    rcases List.mem_append.mp hmem with hb | hb
    · have := hbefore d hb
      rw [h] at this
      cases this
    · rcases List.mem_cons.mp hb with rfl | ha
      · exact Nat.le_refl d
      · exact Nat.le_of_lt ((List.pairwise_cons.mp (List.pairwise_append.mp ordered).2.1).1 d ha)

/-- Beats at `offsets` recur in repetitions of `size` of them: each lies as many intervals after one
of the first repetition as repetitions lie between, up to tolerance. -/
def RecurBy (offsets : List Rat) (length : Rat) (size : Nat) : Prop :=
  ∀ i < offsets.length, almostEqual (offsets.getD i 0)
    (offsets.getD (i % size) 0 + (i / size : Nat) * (length * size / offsets.length)) = true

theorem isPeriod_iff {offsets : List Rat} {length : Rat} {size : Nat} :
    isPeriod offsets length size = true ↔ RecurBy offsets length size := by
  unfold isPeriod RecurBy
  simp only [List.all_eq_true, List.mem_range'_1]
  have key {i : Nat} (hi : i < offsets.length) :
      recurs offsets size (repetitionLength length size offsets.length) i =
        almostEqual (offsets.getD i 0) (offsets.getD (i % size) 0 +
          (i / size : Nat) * (length * size / offsets.length)) := by
    have hi' : i % size < offsets.length := Nat.lt_of_le_of_lt (Nat.mod_le i size) hi
    unfold recurs repetitionLength
    rw [List.getElem?_eq_getElem hi, List.getElem?_eq_getElem hi',
      ← List.getElem_eq_getD 0 (h := hi), ← List.getElem_eq_getD 0 (h := hi')]
    simp only [Scalar.ofInt_rat, Int.cast_natCast]
  constructor
  · intro h i hi
    rcases Nat.lt_or_ge i size with hlt | hge
    · -- The search does not look at the first repetition, where each beat is its own model.
      rw [Nat.mod_eq_of_lt hlt, Nat.div_eq_of_lt hlt, Nat.cast_zero, zero_mul, add_zero]
      exact almostEqual_self _
    · rw [← key hi]
      exact h i (by omega)
  · intro h i hi
    have hi' : i < offsets.length := by omega
    rw [key hi']
    exact h i hi'

namespace Pattern

variable {pending : List (Marker Rat)} {start stop time : Rat} {previous pattern : Pattern Rat}

/-! ## Rejections -/

/-- The close does not come after the start, or is equal to it up to tolerance. -/
theorem endsAtStart_iff :
    endsAtStart start stop = true ↔ stop ≤ start ∨ almostEqual stop start = true := by
  unfold endsAtStart
  rw [Bool.or_eq_true, decide_eq_true_iff]
  exact or_congr sub_nonpos Iff.rfl

/-- Why markers lay out no pattern when they are closed at a time. -/
inductive Rejects (time : Rat) : List (Marker Rat) → Prop
  | loneSet {start : Rat} (early : time ≤ start ∨ almostEqual time start = true) :
      Rejects time [⟨.set, start⟩]
  | setFirst {start : Rat} {next : Marker Rat} {rest : List (Marker Rat)} :
      Rejects time (⟨.set, start⟩ :: next :: rest)
  | closedAtGet {start : Rat} {rest : List (Marker Rat)}
      (early : time ≤ start ∨ almostEqual time start = true) :
      Rejects time (⟨.get, start⟩ :: rest)
  | setAtGet {start t : Rat} {rest : List (Marker Rat)} (mem : ⟨.set, t⟩ ∈ rest)
      (coincides : almostEqual t start = true) :
      Rejects time (⟨.get, start⟩ :: rest)

theorem ofLoneSet_eq_none_iff : ofLoneSet start stop = none ↔ endsAtStart start stop = true := by
  unfold ofLoneSet
  cases endsAtStart start stop <;> simp

theorem ofMarkers_eq_none_iff : ofMarkers start stop pending = none ↔
    endsAtStart start stop = true ∨
      ∃ t, ⟨.set, t⟩ ∈ pending ∧ almostEqual t start = true := by
  have any_iff : (pending.any fun m => m.kind == .set && almostEqual m.time start) = true ↔
      ∃ t, ⟨.set, t⟩ ∈ pending ∧ almostEqual t start = true := by
    rw [List.any_eq_true]
    constructor
    · rintro ⟨⟨kind, t⟩, hm, h⟩
      rw [Bool.and_eq_true, beq_iff_eq] at h
      obtain ⟨rfl, ht⟩ := h
      exact ⟨t, hm, ht⟩
    · rintro ⟨t, hm, ht⟩
      exact ⟨_, hm, by rw [ht]; rfl⟩
  unfold ofMarkers
  split
  · simp [*]
  · rename_i he
    split
    · rename_i hs
      exact iff_of_true rfl (.inr (any_iff.mp hs))
    · rename_i hs
      refine iff_of_false ?_ (not_or.mpr ⟨he, fun h => hs (any_iff.mpr h)⟩)
      simp only
      split <;> simp

theorem close_eq_none_iff {first : Marker Rat} {rest : List (Marker Rat)} :
    close (first :: rest) time previous = none ↔ Rejects time (first :: rest) := by
  obtain ⟨kind, start⟩ := first
  cases kind with
  | set =>
    cases rest with
    | nil =>
      show ofLoneSet start time = none ↔ _
      rw [ofLoneSet_eq_none_iff, endsAtStart_iff]
      constructor
      · exact .loneSet
      · rintro ⟨early⟩
        exact early
    | cons next rest => exact iff_of_true rfl .setFirst
  | get =>
    show ofMarkers start time (⟨.get, start⟩ :: rest) = none ↔ _
    rw [ofMarkers_eq_none_iff, endsAtStart_iff]
    constructor
    · rintro (early | ⟨t, mem, coincides⟩)
      · exact .closedAtGet early
      · rcases List.mem_cons.mp mem with h | mem
        · cases h
        · exact .setAtGet mem coincides
    · intro h
      cases h with
      | closedAtGet early => exact .inl early
      | setAtGet mem coincides => exact .inr ⟨_, List.mem_cons_of_mem _ mem, coincides⟩

/-! ## The shortest repetition -/

theorem interval_pos_of_close {first : Marker Rat} {rest : List (Marker Rat)}
    (h : close (first :: rest) time previous = some pattern) : 0 < pattern.interval := by
  obtain ⟨h0, -, -⟩ | ⟨start, -, hlone⟩ | ⟨start, rest, -, hlaid⟩ := close_cases h
  · cases h0
  · obtain ⟨he, rfl⟩ := ofLoneSet_eq_some_iff.mp hlone
    have hlt := lt_of_endsAtStart_eq_false he
    show (0 : Rat) < 2 * (time - start)
    linarith
  · exact hlaid.interval_pos

/-- A pattern of beats at `sets` over a length repeats the least number of them that recurs. -/
structure RepeatsLeast (sets : List Rat) (length : Rat) (pattern : Pattern Rat) : Prop where
  size_dvd : pattern.offsets.length ∣ sets.length
  offsets_eq : pattern.offsets = sets.take pattern.offsets.length
  interval_mul : pattern.interval * sets.length = length * pattern.offsets.length
  recur : RecurBy sets length pattern.offsets.length
  least : ∀ d, d ∣ sets.length → d < pattern.offsets.length → ¬RecurBy sets length d

theorem LaidOut.repeatsLeast (h : LaidOut start stop pending pattern)
    (hne : offsetsOf .set start pending ≠ []) :
    pattern.RepeatsLeast (offsetsOf .set start pending) (stop - start) := by
  obtain ⟨-, -, ⟨h0, -⟩ | ⟨-, rfl⟩⟩ := h
  · exact absurd h0 hne
  generalize offsetsOf .set start pending = sets at *
  have hsize : (sets.take (period sets (stop - start))).length = period sets (stop - start) := by
    rw [List.length_take]
    exact Nat.min_eq_left (period_le hne)
  have hn : (sets.length : Rat) ≠ 0 := by
    exact_mod_cast (List.length_pos_iff.mpr hne).ne'
  refine ⟨?_, ?_, ?_, ?_, fun d hd hlt hrecur => ?_⟩
  · rw [hsize]
    exact period_dvd _ _
  · rw [hsize]
  · rw [hsize]
    exact div_mul_cancel₀ _ hn
  · rw [hsize]
    exact isPeriod_iff.mp (isPeriod_period _ _)
  · rw [hsize] at hlt
    exact absurd (period_le_of_isPeriod hne hd (isPeriod_iff.mpr hrecur)) (Nat.not_le.mpr hlt)

/-! ## Exact repetitions -/

/-- A group of markers over and over, each repetition a span after the one before. -/
def repetitions (group : List (Marker Rat)) (span : Rat) (count : Nat) : List (Marker Rat) :=
  (List.range count).flatMap fun j => group.map fun m => { m with time := m.time + j * span }

theorem repetitions_succ (group : List (Marker Rat)) (span : Rat) (count : Nat) :
    repetitions group span (count + 1) = repetitions group span count ++
      group.map fun m => { m with time := m.time + count * span } := by
  unfold repetitions
  rw [List.range_succ, List.flatMap_append, List.flatMap_singleton]

theorem length_repetitions (group : List (Marker Rat)) (span : Rat) (count : Nat) :
    (repetitions group span count).length = count * group.length := by
  unfold repetitions
  simp

theorem getElem?_repetitions {group : List (Marker Rat)} {span : Rat} {count i : Nat}
    (hi : i < count * group.length) : (repetitions group span count)[i]? =
      group[i % group.length]?.map fun m =>
        { m with time := m.time + (i / group.length : Nat) * span } := by
  induction count with
  | zero => omega
  | succ count ih =>
    rw [repetitions_succ]
    rcases Nat.lt_or_ge i (count * group.length) with hlt | hge
    · rw [List.getElem?_append_left (by rwa [length_repetitions]), ih hlt]
    · obtain ⟨r, rfl⟩ := Nat.exists_eq_add_of_le hge
      have hr : r < group.length := by
        rw [Nat.succ_mul] at hi
        omega
      rw [List.getElem?_append_right (by rw [length_repetitions]; omega), length_repetitions,
        Nat.add_sub_cancel_left, List.getElem?_map, Nat.mul_add_mod_self_right,
        Nat.mod_eq_of_lt hr, Nat.add_comm, Nat.add_mul_div_right _ _ (by omega),
        Nat.div_eq_of_lt hr, Nat.zero_add]

/-- Repeated markers recur in repetitions of the group, if they fill the length. -/
theorem recurBy_repetitions (group : List (Marker Rat)) (span start : Rat) (count : Nat) :
    RecurBy ((repetitions group span count).map (·.time - start)) (count * span) group.length := by
  intro i hi
  rw [List.length_map, length_repetitions] at hi ⊢
  have hs : 0 < group.length := Nat.pos_of_mul_pos_left (Nat.zero_lt_of_lt hi)
  have hcount : 0 < count := Nat.pos_of_mul_pos_right (Nat.zero_lt_of_lt hi)
  have hr : i % group.length < group.length := Nat.mod_lt i hs
  have offset {k : Nat} (hk : k < count * group.length) :
      ((repetitions group span count).map (·.time - start)).getD k 0 =
        (group.get ⟨k % group.length, Nat.mod_lt k hs⟩).time +
          (k / group.length : Nat) * span - start := by
    rw [List.getD_eq_getElem?_getD, List.getElem?_map, getElem?_repetitions hk,
      List.getElem?_eq_getElem (Nat.mod_lt k hs)]
    rfl
  have hspan : count * span * group.length / (count * group.length : Nat) = span := by
    have hs' : (group.length : Rat) ≠ 0 := Nat.cast_ne_zero.mpr hs.ne'
    have hcount' : (count : Rat) ≠ 0 := Nat.cast_ne_zero.mpr hcount.ne'
    rw [Nat.cast_mul, mul_div_mul_right _ _ hs', mul_div_cancel_left₀ _ hcount']
  have hmod : i % group.length % group.length = i % group.length := Nat.mod_mod _ _
  rw [offset hi, offset (lt_of_lt_of_le hr (Nat.le_mul_of_pos_left _ hcount)), hspan]
  simp only [hmod, Nat.div_eq_of_lt hr, Nat.cast_zero, zero_mul, add_zero]
  rw [sub_add_eq_add_sub]
  exact almostEqual_self _

/-- So a pattern of them does not take more than one group. -/
theorem RepeatsLeast.length_le {group : List (Marker Rat)} {span start : Rat} {count : Nat}
    (h : pattern.RepeatsLeast ((repetitions group span count).map (·.time - start))
      (count * span)) : pattern.offsets.length ≤ group.length := by
  by_contra hlt
  refine h.least group.length ?_ (Nat.not_le.mp hlt) (recurBy_repetitions group span start count)
  rw [List.length_map, length_repetitions]
  exact Nat.dvd_mul_left _ _

/-- Closing markers fails for the reasons of `Rejects` only. Otherwise the pattern has an interval,
and from a get on it repeats the least number of sets that recurs: where the sets are exact
repetitions of a group that fill the length, no more than one group. -/
theorem close_least_period (first : Marker Rat) (rest : List (Marker Rat)) (time : Rat)
    (previous : Pattern Rat) :
    (close (first :: rest) time previous = none ↔ Rejects time (first :: rest)) ∧
      ∀ pattern, close (first :: rest) time previous = some pattern →
        0 < pattern.interval ∧
          (first.kind = .get → offsetsOf .set first.time (first :: rest) ≠ [] →
            pattern.RepeatsLeast (offsetsOf .set first.time (first :: rest)) (time - first.time) ∧
              ∀ group span count,
                (first :: rest).filter (·.kind == .set) = repetitions group span count →
                  time = first.time + count * span → pattern.offsets.length ≤ group.length) := by
  refine ⟨close_eq_none_iff, fun pattern h => ⟨interval_pos_of_close h, fun hk hne => ?_⟩⟩
  obtain ⟨kind, start⟩ := first
  obtain rfl : kind = .get := hk
  obtain ⟨h0, -, -⟩ | ⟨start', h0, -⟩ | ⟨start', rest', h0, hlaid⟩ := close_cases h
  · cases h0
  · cases h0
  cases h0
  have hleast := hlaid.repeatsLeast hne
  refine ⟨hleast, fun group span count hgroup htime => ?_⟩
  unfold offsetsOf at hleast
  rw [hgroup, show time - start = count * span from sub_eq_of_eq_add' htime] at hleast
  exact hleast.length_le

/-- Two gets, each with a set after it: one set in a repetition. -/
theorem close_least_period_two_pairs :
    ∃ pattern : Pattern Rat,
      close [⟨.get, 0⟩, ⟨.set, 1⟩, ⟨.get, 2⟩, ⟨.set, 3⟩] 4 .empty = some pattern ∧
        0 < pattern.interval ∧ pattern.offsets.length ≤ 1 := by
  obtain ⟨pattern, hclose⟩ := Option.isSome_iff_exists.mp
    (show (close [⟨.get, 0⟩, ⟨.set, 1⟩, ⟨.get, 2⟩, ⟨.set, 3⟩] (4 : Rat) .empty).isSome = true by
      decide +kernel)
  obtain ⟨-, hsome⟩ := close_least_period ⟨.get, 0⟩ [⟨.set, 1⟩, ⟨.get, 2⟩, ⟨.set, 3⟩] 4 .empty
  obtain ⟨hpos, hperiod⟩ := hsome pattern hclose
  obtain ⟨-, hgroup⟩ := hperiod rfl (by decide)
  have hsets : ([⟨.get, 0⟩, ⟨.set, 1⟩, ⟨.get, 2⟩, ⟨.set, 3⟩] : List (Marker Rat)).filter
      (·.kind == .set) = repetitions [⟨.set, 1⟩] 2 2 := by
    simp [repetitions, List.range_succ]
    norm_num
  exact ⟨pattern, hclose, hpos, hgroup [⟨.set, 1⟩] 2 2 hsets (by norm_num)⟩

end Pattern

end CueCheck
