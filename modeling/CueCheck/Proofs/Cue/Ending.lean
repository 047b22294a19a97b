import CueCheck.Cue.Run
import CueCheck.Proofs.Binary64.Near
import CueCheck.Proofs.Cue.Closing
import CueCheck.Proofs.Tolerance

/-!
# Runs that end

A run ends where one of its terms is neither below the end nor equal to it up to tolerance. Over
binary64 numbers such a term need not exist, but away from the ends of the range it does.

- **The end** (`Run.EndsAt`): the first beat that is not due. However many beats are drawn, they are
  those before it (`Run.EndsAt.firstBeats_eq`). A run that is past its end by its horizon asks for
  all the beats before the end, and no others (`Run.beats_eq`).
- **Far from the ends of the range** (`IsScale`, `Run.IsModerate`): the numbers of a run are not so
  great, and its interval is not so small, that rounding could get in the way.
- **The result** (`Run.ends_of_isModerate`): a moderate run ends before its horizon.
-/

namespace CueCheck

open Binary64 (greatest least least_pos)

namespace Run

/-! ## The end of a run -/

section

variable {α : Type} [Scalar α] {run : Run α} {stop : α}

/-- Beat `k` is the first that is not due. -/
structure EndsAt (run : Run α) (stop : α) (k : ℕ) : Prop where
  due : ∀ i < k, run.isDue stop i = true
  past : run.isDue stop k = false

theorem exists_endsAt {k : ℕ} (past : run.isDue stop k = false) :
    ∃ n ≤ k, run.EndsAt stop n := by
  have hex : ∃ i, run.isDue stop i = false := ⟨k, past⟩
  refine ⟨Nat.find hex, Nat.find_min' hex past, fun i hi => ?_, Nat.find_spec hex⟩
  rw [← Bool.not_eq_false]
  exact Nat.find_min hex hi

theorem beatsFrom_eq {k n : ℕ} (due : ∀ i < n, run.isDue stop (k + i) = true)
    (past : run.isDue stop (k + n) = false) (limit : ℕ) :
    run.beatsFrom stop k limit = (List.range' k (min limit n)).map run.beat := by
  induction limit generalizing k n with
  | zero =>
    rw [Nat.zero_min]
    rfl
  | succ limit ih =>
    unfold beatsFrom
    cases n with
    | zero =>
      rw [show run.isDue stop k = false from past, Nat.min_zero]
      rfl
    | succ n =>
      have later : ∀ i < n, run.isDue stop (k + 1 + i) = true := by
        intro i hi
        rw [Nat.add_right_comm, Nat.add_assoc]
        exact due (i + 1) (by omega)
      rw [Nat.add_comm n, ← Nat.add_assoc] at past
      rw [show run.isDue stop k = true from due 0 (by omega), if_pos rfl, ih later past,
        Nat.succ_min_succ, List.range'_succ, List.map_cons]

/-- However many beats are drawn from a run that ends, they are those before the end. -/
theorem EndsAt.firstBeats_eq {n : ℕ} (h : run.EndsAt stop n)
    (playable : run.pattern.isPlayable = true) (limit : ℕ) :
    run.firstBeats stop limit = (List.range (min limit n)).map run.beat := by
  unfold firstBeats
  rw [if_pos playable, List.range_eq_range']
  refine beatsFrom_eq (fun i hi => ?_) ?_ limit
  · rw [Nat.zero_add]
    exact h.due i hi
  · rw [Nat.zero_add]
    exact h.past

/-- A run that is over by its horizon asks for all the beats before its end, and no others. -/
theorem beats_eq {k : ℕ} (playable : run.pattern.isPlayable = true)
    (past : run.isDue stop k = false) (hk : k < run.horizon stop) :
    ∃ n, run.EndsAt stop n ∧ run.beats stop = (List.range n).map run.beat := by
  obtain ⟨n, hn, h⟩ := exists_endsAt past
  refine ⟨n, h, ?_⟩
  unfold beats
  rw [h.firstBeats_eq playable, Nat.min_eq_right (by omega)]

/-! ## Sizes -/

theorem size_of_exact {x : α} {q : ℚ} (h : Scalar.exact x = .finite q) : size x = |q| := by
  unfold size
  rw [h]
  simp only
  rcases abs_eq_or q with ⟨hq, he⟩ | ⟨hq, he⟩
  · rw [he, abs_of_nonneg hq]
  · rw [he, abs_of_nonpos hq]

end

theorem largest_eq (sizes : List ℚ) : largest sizes = sizes.foldl max 0 := by
  unfold largest
  congr 1
  funext x y
  exact (max_def_lt x y).symm

theorem foldl_max_le_iff {sizes : List ℚ} {init c : ℚ} :
    sizes.foldl max init ≤ c ↔ init ≤ c ∧ ∀ x ∈ sizes, x ≤ c := by
  induction sizes generalizing init with
  | nil => simp
  | cons x xs ih => simp [ih, and_assoc]

theorem largest_le_iff {sizes : List ℚ} {c : ℚ} :
    largest sizes ≤ c ↔ 0 ≤ c ∧ ∀ x ∈ sizes, x ≤ c := by
  rw [largest_eq, foldl_max_le_iff]

end Run

/-- A whole number of intervals that exceeds a length by one to two of them. -/
theorem ceil_mul_bounds {length interval : ℚ} (hpos : 0 < interval) (hlength : 0 ≤ length) :
    length + interval ≤ ((length / interval).ceil.toNat + 1 : ℕ) * interval ∧
      ((length / interval).ceil.toNat + 1 : ℕ) * interval ≤ length + 2 * interval := by
  have hle : length / interval ≤ (length / interval).ceil := Rat.le_ceil
  have hlt : ((length / interval).ceil : ℚ) < length / interval + 1 := Rat.ceil_lt
  have hceil : 0 ≤ (length / interval).ceil := by
    have : (0 : ℚ) ≤ (length / interval).ceil := le_trans (by positivity) hle
    exact_mod_cast this
  obtain ⟨c, hc⟩ := Int.eq_ofNat_of_zero_le hceil
  rw [hc] at hle hlt ⊢
  rw [Int.toNat_natCast]
  push_cast at hle hlt ⊢
  rw [div_le_iff₀ hpos] at hle
  rw [← sub_lt_iff_lt_add, lt_div_iff₀ hpos] at hlt
  constructor <;> linarith

/-! ## Numbers far from the ends of the range -/

/-- A number of a magnitude up to `most`. -/
def IsWithin (most : ℚ) (x : Float) : Prop :=
  ∃ q, Scalar.exact x = .finite q ∧ |q| ≤ most

theorem IsWithin.mono {c d : ℚ} {x : Float} (h : IsWithin c x) (hcd : c ≤ d) : IsWithin d x := by
  obtain ⟨q, hq, hle⟩ := h
  exact ⟨q, hq, hle.trans hcd⟩

/-- Neither times up to `most` nor intervals from `fine` up come near the ends of the range, nor
do the numbers of repetitions that lead from one to the other. -/
structure IsScale (fine most : ℚ) : Prop where
  fine_ge : 2 ^ 60 * least ≤ fine
  most_le : 2 ^ 20 * most ≤ greatest
  ratio_le : 16 * most ≤ fine * greatest

/-- The interval is between `fine` and `most`, and no offset is greater than `most`. -/
structure Pattern.IsModerate (pattern : Pattern Float) (fine most : ℚ) : Prop where
  interval : ∃ q, Scalar.exact pattern.interval = .finite q ∧ fine ≤ q ∧ q ≤ most
  offsets : ∀ offset ∈ pattern.offsets, IsWithin most offset

/-- A moderate pattern runs from a start up to `most` to an end up to `most`. -/
structure Run.IsModerate (run : Run Float) (stop : Float) (fine most : ℚ) : Prop where
  start : IsWithin most run.start
  stop : IsWithin most stop
  pattern : run.pattern.IsModerate fine most

namespace Run

variable {run : Run Float} {stop : Float} {fine most : ℚ}

/-- A multiple of all sizes involved in a run. -/
def reach (run : Run Float) (stop : Float) : ℚ :=
  4 * (size run.start + size stop + largest (run.pattern.offsets.map size))

/-- The repetition before the horizon. -/
def lastGroup (run : Run Float) (stop : Float) : ℕ :=
  (run.reach stop / size run.pattern.interval).ceil.toNat + 1

theorem horizon_eq : run.horizon stop = run.pattern.offsets.length * (run.lastGroup stop + 1) := rfl

/-- The last repetition begins `reach` and one to two intervals after the first. -/
theorem lastGroup_bounds {I : ℚ} (hI : Scalar.exact run.pattern.interval = .finite I) (hpos : 0 < I)
    (hreach : 0 ≤ run.reach stop) :
    run.reach stop + I ≤ run.lastGroup stop * I ∧
      run.lastGroup stop * I ≤ run.reach stop + 2 * I := by
  unfold lastGroup
  rw [size_of_exact hI, abs_of_pos hpos]
  exact ceil_mul_bounds hpos hreach

theorem reach_bounds (h : run.IsModerate stop fine most) {S E : ℚ}
    (hS : Scalar.exact run.start = .finite S) (hE : Scalar.exact stop = .finite E) :
    ∃ L, run.reach stop = 4 * (|S| + |E| + L) ∧ 0 ≤ L ∧ L ≤ most ∧
      ∀ offset ∈ run.pattern.offsets, IsWithin L offset := by
  have hmost : 0 ≤ most := by
    obtain ⟨q, -, hq⟩ := h.start
    exact (abs_nonneg q).trans hq
  refine ⟨largest (run.pattern.offsets.map size), ?_, ?_, ?_, fun offset ho => ?_⟩
  · unfold reach
    rw [size_of_exact hS, size_of_exact hE]
  · exact (largest_le_iff.mp le_rfl).1
  · refine largest_le_iff.mpr ⟨hmost, fun x hx => ?_⟩
    obtain ⟨offset, ho, rfl⟩ := List.mem_map.mp hx
    obtain ⟨q, hq, hle⟩ := h.pattern.offsets offset ho
    rwa [size_of_exact hq]
  · obtain ⟨q, hq, -⟩ := h.pattern.offsets offset ho
    refine ⟨q, hq, ?_⟩
    rw [← size_of_exact hq]
    exact (largest_le_iff.mp le_rfl).2 _ (List.mem_map_of_mem ho)

/-- The beginning of a repetition, counted from the first one. -/
theorem group_error (hs : IsScale fine most) {interval : Float} {I : ℚ} {g : ℕ}
    (hI : Scalar.exact interval = .finite I) (hfine : fine ≤ I) (hg : 1 ≤ g)
    (hbound : 2 * (g * I) ≤ greatest) (hgreatest : (g : ℚ) ≤ greatest) :
    ∃ r, Scalar.exact (Scalar.ofInt g * interval) = .finite r ∧ |r - g * I| ≤ g * I / 2 ^ 40 := by
  have hleast := least_pos
  have hfine' := hs.fine_ge
  have hpos : 0 < I := by linarith
  have hone : (1 : ℚ) ≤ g := by exact_mod_cast hg
  have hle : I ≤ g * I := le_mul_of_one_le_left hpos.le hone
  have habs : |g * I| = g * I := abs_of_pos (hpos.trans_le hle)
  obtain ⟨r, hr, herror⟩ := (Binary64.isNear_ofInt hgreatest).mul ⟨le_rfl, by norm_num⟩
    (Binary64.isNear_of_exact hI) (by rw [habs]; linarith) (by rw [habs]; linarith)
  rw [habs] at herror
  exact ⟨r, hr, by linarith⟩

/-- Adding a number does not bring a sum further than its magnitude and a small part of the size. -/
theorem add_within {x y : Float} {p q G : ℚ} (hx : Scalar.exact x = .finite p)
    (hy : Scalar.exact y = .finite q) (hp : |p| ≤ 2 * G) (hq : |q| ≤ 2 * G)
    (hbound : 4 * G ≤ greatest) :
    ∃ r, Scalar.exact (x + y) = .finite r ∧ |r - (p + q)| ≤ G / 2 ^ 40 := by
  have hsum : |p + q| ≤ 4 * G := by
    have := abs_add_le p q
    linarith
  obtain ⟨r, hr, hrerror⟩ := Binary64.add_error hx hy (hsum.trans hbound)
  have hG : 0 ≤ G := by
    have := abs_nonneg p
    linarith
  exact ⟨r, hr, by linarith⟩

/-- The first beat of a repetition lies an offset after it, up to a small part of `G`, the distance
of the repetition from the first. -/
theorem term_group_error (hs : IsScale fine most) {S I G L : ℚ} {g : ℕ}
    (hS : Scalar.exact run.start = .finite S) (hI : Scalar.exact run.pattern.interval = .finite I)
    (hfine : fine ≤ I) (hg : 1 ≤ g) (hG : G = g * I) (hstart : |S| ≤ G / 2) (hlargest : L ≤ G)
    (hoffsets : ∀ offset ∈ run.pattern.offsets, IsWithin L offset)
    (hne : run.pattern.offsets ≠ []) (hbound : 4 * G ≤ greatest) (hgreatest : (g : ℚ) ≤ greatest) :
    ∃ X, Scalar.exact (run.term (run.pattern.offsets.length * g)) = .finite X ∧
      |X - (S + G)| ≤ L + G / 2 ^ 30 := by
  have hG0 : 0 ≤ G := by
    have := abs_nonneg S
    linarith
  obtain ⟨T, hT, hTerror⟩ := group_error hs hI hfine hg (by rw [← hG]; linarith) hgreatest
  rw [← hG] at hTerror
  obtain ⟨offset, others, hoffset⟩ := List.exists_cons_of_ne_nil hne
  obtain ⟨O, hO, hOL⟩ := hoffsets offset (by rw [hoffset]; exact List.mem_cons_self)
  have hT2 : |T| ≤ 2 * G := by
    rw [abs_le] at hTerror ⊢
    constructor <;> linarith
  obtain ⟨B, hB, hBerror⟩ := add_within hS hT (G := G) (by linarith) hT2 hbound
  have hBG : |B - (S + G)| ≤ G / 2 ^ 35 := by
    have := abs_sub_le B (S + T) (S + G)
    rw [add_sub_add_left_eq_sub] at this
    linarith
  have hB2 : |B| ≤ 2 * G := by
    have := abs_sub_abs_le_abs_sub B (S + G)
    have := abs_add_le S G
    rw [abs_of_nonneg hG0] at this
    linarith
  obtain ⟨X, hX, hXerror⟩ := add_within hB hO (G := G) hB2 (by linarith) hbound
  refine ⟨X, ?_, ?_⟩
  · have hlength : 0 < run.pattern.offsets.length := List.length_pos_iff.mpr hne
    unfold term
    simp only [Nat.mul_div_cancel_left _ hlength, Nat.mul_mod_right]
    rw [hoffset]
    exact hX
  · rw [abs_le] at hXerror hBG hOL ⊢
    constructor <;> linarith

/-- The first beat of the last repetition is past the end, by more than the tolerance. -/
theorem past_last_group (hs : IsScale fine most) (h : run.IsModerate stop fine most)
    (hne : run.pattern.offsets ≠ []) :
    run.isDue stop (run.pattern.offsets.length * run.lastGroup stop) = false := by
  obtain ⟨S, hS, hSmost⟩ := h.start
  obtain ⟨E, hE, hEmost⟩ := h.stop
  obtain ⟨I, hI, hfine, hImost⟩ := h.pattern.interval
  obtain ⟨L, hreach, hL, hLmost, hoffsets⟩ := reach_bounds h hS hE
  have hleast := least_pos
  have hfine' := hs.fine_ge
  have hmost' := hs.most_le
  have hpos : 0 < I := by linarith
  have hS0 := abs_nonneg S
  have hE0 := abs_nonneg E
  have hone : 1 ≤ run.lastGroup stop := Nat.le_add_left 1 _
  obtain ⟨hlo, hhi⟩ := lastGroup_bounds hI hpos (by rw [hreach]; linarith)
  rw [hreach] at hlo hhi
  have hg : (run.lastGroup stop : ℚ) ≤ greatest := by
    refine le_of_mul_le_mul_right ?_ hpos
    calc run.lastGroup stop * I ≤ 16 * most := by linarith
      _ ≤ fine * greatest := hs.ratio_le
      _ ≤ greatest * I := by
        rw [mul_comm]
        exact mul_le_mul_of_nonneg_left hfine (by linarith)
  obtain ⟨G, hG⟩ : ∃ G, G = run.lastGroup stop * I := ⟨_, rfl⟩
  rw [← hG] at hlo hhi
  obtain ⟨X, hX, hXerror⟩ := term_group_error hs hS hI hfine hone hG (by linarith) (by linarith)
    hoffsets hne (by linarith) hg
  rw [abs_le] at hXerror
  have hS' := abs_le.mp (le_refl |S|)
  have hE' := abs_le.mp (le_refl |E|)
  have hlt : E + G / 2 < X := by linarith
  have hX2 : |X| ≤ 2 * G := abs_le.mpr ⟨by linarith, by linarith⟩
  have hdiff : |X - E| = X - E := abs_of_pos (by linarith)
  unfold isDue
  rw [Bool.or_eq_false_iff, Binary64.less_of_exact hX hE, decide_eq_false_iff_not, not_lt]
  refine ⟨by linarith, Binary64.almostEqual_eq_false hX hE (by linarith) ?_ ?_⟩
  · rw [hdiff]
    linarith
  · rw [hdiff]
    linarith

/-- A moderate run ends, and all its beats before the end are asked for. -/
theorem ends_of_isModerate (hs : IsScale fine most) (h : run.IsModerate stop fine most)
    (playable : run.pattern.isPlayable = true) :
    ∃ n, run.EndsAt stop n ∧ run.beats stop = (List.range n).map run.beat := by
  have hne := (Pattern.isPlayable_iff.mp playable).2
  refine beats_eq playable (past_last_group hs h hne) ?_
  rw [horizon_eq]
  exact Nat.mul_lt_mul_of_pos_left (Nat.lt_succ_self _) (List.length_pos_iff.mpr hne)

end Run

end CueCheck
