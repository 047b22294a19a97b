import CueCheck.Proofs.Binary64.Near
import CueCheck.Proofs.Cue.Spread

/-!
# Square patterns

A pattern is square if its gets are as many as its sets and begin its repetitions. Nothing compares
them with the sets, which alone say how many of them make a repetition.

- **What is square** (`Pattern.LaidOutSquare`, `Pattern.IsPaired`): with one set in each repetition,
  a get and a set in turn, always as far apart.
- **Distances** (`Pattern.IsSpan`): in a span that is neither too short nor too long, intervals are
  near their exact values. More than two repetitions of more than one set would have a get after the
  end of the span (`Pattern.IsSpan.almostEqual_eq_false`). Two of them have it at the end
  (`Pattern.IsSpan.near_of_almostEqual`), from which the tolerance does not tell it.
- **The result** (`Pattern.close_square`): so a square pattern has one beat, unless there are two
  gets and the second is at the close. That happens (`Pattern.close_square_get_at_close`).
-/

namespace CueCheck

open Binary64 (IsNear greatest least least_pos)
open Scalar (less ofInt)

namespace Pattern

/-! ## What is square -/

section

variable {α : Type} [Scalar α] {pending : List (Marker α)} {start stop : α} {pattern : Pattern α}

/-- Repetitions of one get and one set: the gets are whole intervals after the first, and the sets
are a tick after them, up to tolerance. -/
structure IsPaired (gets sets : List α) (tick interval : α) : Prop where
  length_eq : gets.length = sets.length
  first_set : sets.head? = some tick
  get_at : ∀ (i : ℕ) g, gets[i]? = some g → almostEqual g (ofInt i * interval) = true
  set_at : ∀ (i : ℕ) s, 0 < i → sets[i]? = some s → almostEqual s (tick + ofInt i * interval) = true

/-- What a square pattern of markers from a get on is made of. -/
structure LaidOutSquare (start stop : α) (pending : List (Marker α)) (pattern : Pattern α) :
    Prop where
  nonempty : offsetsOf .set start pending ≠ []
  length_eq : (offsetsOf .get start pending).length = (offsetsOf .set start pending).length
  offsets_eq : pattern.offsets = (offsetsOf .set start pending).take
    (period (offsetsOf .set start pending) (stop - start))
  interval_eq : pattern.interval = repetitionLength (stop - start)
    (period (offsetsOf .set start pending) (stop - start)) (offsetsOf .set start pending).length
  get_at : ∀ (i : ℕ) g, (offsetsOf .get start pending)[i]? = some g →
    almostEqual g (ofInt i * pattern.interval) = true

theorem LaidOut.square (h : LaidOut start stop pending pattern)
    (square : pattern.squareshot = true) : LaidOutSquare start stop pending pattern := by
  obtain ⟨-, -, ⟨-, rfl⟩ | ⟨hne, rfl⟩⟩ := h
  · cases square
  · rw [Bool.and_eq_true, beq_iff_eq, List.all_eq_true] at square
    refine ⟨hne, square.1, rfl, rfl, fun i g hg => ?_⟩
    exact square.2 (g, i) (List.mem_zipIdx_iff_getElem?.mpr hg)

theorem LaidOutSquare.length_offsets (h : LaidOutSquare start stop pending pattern) :
    pattern.offsets.length = period (offsetsOf .set start pending) (stop - start) := by
  rw [h.offsets_eq, List.length_take]
  exact Nat.min_eq_left (period_le h.nonempty)

theorem LaidOutSquare.isPaired (h : LaidOutSquare start stop pending pattern)
    (hone : pattern.offsets.length = 1) : ∃ tick, pattern.offsets = [tick] ∧
      IsPaired (offsetsOf .get start pending) (offsetsOf .set start pending) tick
        pattern.interval := by
  have hperiod := isPeriod_period (offsetsOf .set start pending) (stop - start)
  have hoffsets := h.offsets_eq
  have hinterval := h.interval_eq
  rw [← h.length_offsets, hone] at hperiod hoffsets hinterval
  obtain ⟨tick, rest, hsets⟩ := List.exists_cons_of_ne_nil h.nonempty
  refine ⟨tick, ?_, h.length_eq, ?_, h.get_at, fun i s hi hs => ?_⟩
  · rw [hoffsets, hsets]
    rfl
  · rw [hsets]
    rfl
  · obtain ⟨hlt, -⟩ := List.getElem?_eq_some_iff.mp hs
    unfold isPeriod at hperiod
    have hrecurs := List.all_eq_true.mp hperiod i (List.mem_range'_1.mpr (by omega))
    unfold recurs at hrecurs
    rw [hs, Nat.mod_one, Nat.div_one, hsets] at hrecurs
    rw [hinterval, hsets]
    exact hrecurs

end

/-! ## Distances in a span -/

/-- Two numbers between which up to `2 ^ 64` markers lay out a pattern without overflow or
underflow. -/
structure IsSpan (start stop : Float) (p q : ℚ) : Prop where
  start : Scalar.exact start = .finite p
  stop : Scalar.exact stop = .finite q
  ge : 2 ^ 130 * least ≤ q - p
  le : 2 ^ 80 * (q - p) ≤ greatest

section

variable {start stop : Float} {p q : ℚ} {size n i : ℕ}

theorem IsSpan.lt (h : IsSpan start stop p q) : p < q := by
  have := least_pos
  have := h.ge
  linarith

/-- The share that a repetition has in a length. -/
theorem repetitionShare_bounds {d : ℚ} (hd : 0 < d) (hsize : 1 ≤ size) (hle : size ≤ n)
    (hn : (n : ℚ) ≤ 2 ^ 64) : d / 2 ^ 64 ≤ d * size / n ∧ d * size / n ≤ d := by
  have hsize' : (1 : ℚ) ≤ size := by exact_mod_cast hsize
  have hle' : (size : ℚ) ≤ n := by exact_mod_cast hle
  have hn0 : (0 : ℚ) < n := by linarith
  constructor
  · have : d ≤ d * size := le_mul_of_one_le_right hd.le hsize'
    gcongr
  · rw [div_le_iff₀ hn0]
    gcongr

/-- Repetitions begin near the multiples of that share of the span. -/
theorem IsSpan.isNear_group (h : IsSpan start stop p q) (hsize : 1 ≤ size) (hle : size ≤ n)
    (hn : (n : ℚ) ≤ 2 ^ 64) (hi : 1 ≤ i) (hin : i ≤ n) :
    IsNear (1 / 2 ^ 44) (ofInt i * repetitionLength (stop - start) size n)
      (i * ((q - p) * size / n)) := by
  have hleast := least_pos
  have hlo := h.ge
  have hhi := h.le
  have hpos : 0 < q - p := sub_pos.mpr h.lt
  have hi' : (1 : ℚ) ≤ i := by exact_mod_cast hi
  have hin' : (i : ℚ) ≤ 2 ^ 64 := (Nat.cast_le.mpr hin).trans hn
  have hsize' : (size : ℚ) ≤ 2 ^ 64 := (Nat.cast_le.mpr hle).trans hn
  have hgreatest : (2 : ℚ) ^ 64 ≤ greatest := Binary64.two_pow_le_greatest (by decide)
  have hlength := Binary64.isNear_sub h.stop h.start (by rw [abs_of_pos hpos]; linarith)
  have hproduct : (q - p) * size ≤ (q - p) * 2 ^ 64 := by gcongr
  obtain ⟨hge, hle'⟩ := repetitionShare_bounds hpos hsize hle hn
  have hinterval := isNear_repetitionLength hlength hpos.le hle (by omega) (hn.trans hgreatest)
    (by linarith) (by linarith)
  generalize (q - p) * size / n = share at *
  have hshare : 0 ≤ share := by linarith
  have hgroup : share ≤ i * share := le_mul_of_one_le_left hshare hi'
  have hgroup' : i * share ≤ 2 ^ 64 * (q - p) := by gcongr
  have habs : |i * share| = i * share := abs_of_pos (by linarith)
  exact (((Binary64.isNear_ofInt (hin'.trans hgreatest)).mono (by norm_num)).mul
    ⟨by norm_num, by norm_num⟩ hinterval (by rw [habs]; linarith)
    (by rw [habs]; linarith)).mono (by norm_num)

/-- The offset of a number in the span is near its distance from the start. -/
theorem IsSpan.isNear_offset (h : IsSpan start stop p q) {t : Float} {r : ℚ}
    (ht : Scalar.exact t = .finite r) (hpr : p ≤ r) (hrq : r ≤ q) :
    IsNear (1 / 2 ^ 44) (t - start) (r - p) := by
  have hlo := h.ge
  have hhi := h.le
  have hleast := least_pos
  refine (Binary64.isNear_sub ht h.start ?_).mono (by norm_num)
  rw [abs_of_nonneg (by linarith)]
  linarith

/-- A repetition of `size` out of `n` beats takes up `size / n` of their span. With `1 < size` and
`2 < n`, all of `n - 1` repetitions take up half as much again as the span. -/
theorem three_halves_le {size n : ℕ} (hdvd : size ∣ n) (hsize : 2 ≤ size) (hn : 3 ≤ n) :
    3 * n ≤ 2 * ((n - 1) * size) := by
  rcases Nat.lt_or_ge n 4 with hlt | hge
  · obtain rfl : n = 3 := by omega
    obtain rfl : size = 3 := by
      have := Nat.le_of_dvd (by omega) hdvd
      interval_cases size <;> omega
    decide
  · have : (n - 1) * 2 ≤ (n - 1) * size := Nat.mul_le_mul_left _ hsize
    omega

/-- So the last of `n` gets would begin its repetition after the span. -/
theorem IsSpan.almostEqual_eq_false (h : IsSpan start stop p q) (hdvd : size ∣ n) (hsize : 2 ≤ size)
    (hn3 : 3 ≤ n) (hn : (n : ℚ) ≤ 2 ^ 64) {t : Float} {r : ℚ} (ht : Scalar.exact t = .finite r)
    (hpr : p ≤ r) (hrq : r ≤ q) :
    almostEqual (t - start) (ofInt ((n - 1 : ℕ) : ℤ) * repetitionLength (stop - start) size n) =
      false := by
  have hleast := least_pos
  have hlo := h.ge
  have hhi := h.le
  have hpos : 0 < q - p := sub_pos.mpr h.lt
  have hle := Nat.le_of_dvd (by omega) hdvd
  have hn0 : (0 : ℚ) < n := Nat.cast_pos.mpr (by omega)
  have hgroup := h.isNear_group (by omega) hle hn (show 1 ≤ n - 1 by omega) (Nat.sub_le n 1)
  obtain ⟨-, hshare⟩ := repetitionShare_bounds hpos (by omega : 1 ≤ size) hle hn
  obtain ⟨begins, hbegins⟩ : ∃ begins, begins = ((n - 1 : ℕ) : ℚ) * ((q - p) * size / n) := ⟨_, rfl⟩
  have hfar : 3 / 2 * (q - p) ≤ begins := by
    have hmul : (3 : ℚ) * n ≤ 2 * ((n - 1 : ℕ) * size) := by
      exact_mod_cast three_halves_le hdvd hsize hn3
    rw [hbegins, ← mul_div_assoc, le_div_iff₀ hn0]
    have := mul_le_mul_of_nonneg_left hmul hpos.le
    linarith
  have hmost : begins ≤ 2 ^ 64 * (q - p) := by
    have : ((n - 1 : ℕ) : ℚ) ≤ 2 ^ 64 := (Nat.cast_le.mpr (Nat.sub_le n 1)).trans hn
    rw [hbegins]
    gcongr
  rw [← hbegins] at hgroup
  exact (h.isNear_offset ht hpr hrq).almostEqual_eq_false (by norm_num) hgroup (by linarith)
    (by linarith) (by linarith) (by linarith)

/-- Where one repetition takes up the whole span, the next begins at its end. -/
theorem IsSpan.near_of_almostEqual (h : IsSpan start stop p q) {t : Float} {r : ℚ}
    (ht : Scalar.exact t = .finite r) (hpr : p ≤ r) (hrq : r ≤ q)
    (he : almostEqual (t - start) (ofInt (1 : ℕ) * repetitionLength (stop - start) 2 2) = true) :
    1000 * (q - r) ≤ q - p := by
  have hleast := least_pos
  have hlo := h.ge
  have hhi := h.le
  have hgroup := h.isNear_group (show 1 ≤ 2 by decide) (le_refl 2) (by norm_num) (le_refl 1)
    (show 1 ≤ 2 by decide)
  rw [show ((1 : ℕ) : ℚ) * ((q - p) * (2 : ℕ) / (2 : ℕ)) = q - p by push_cast; ring] at hgroup
  by_contra hfar
  have hne := (h.isNear_offset ht hpr hrq).almostEqual_eq_false (by norm_num) hgroup
    (by linarith) (by linarith) (by linarith) (by linarith)
  rw [he] at hne
  cases hne

end

/-! ## Square patterns -/

section

variable {first : Marker Float} {rest : List (Marker Float)} {time : Float}
  {previous pattern : Pattern Float} {p q : ℚ}

/-- Markers at strictly ascending numbers before a close. -/
structure IsStrict (pending : List (Marker Float)) (time : Float) : Prop where
  finite : ∀ m ∈ pending, Scalar.isFinite m.time = true
  ordered : pending.Pairwise fun a b => less a.time b.time = true
  before : ∀ m ∈ pending, less m.time time = true

theorem IsStrict.length_le {pending : List (Marker Float)} (h : IsStrict pending time) :
    pending.length ≤ 2 ^ 64 := by
  rw [← List.length_map (·.time)]
  refine Binary64.length_le_of_nodup ?_
  unfold List.Nodup
  rw [List.pairwise_map]
  refine h.ordered.imp_of_mem fun {a b} ha hb hless heq => ?_
  obtain ⟨r, hr⟩ := Binary64.exists_exact_eq (h.finite a ha)
  rw [heq] at hless hr
  exact lt_irrefl r (Binary64.lt_of_less hr hr hless)

/-- All markers lie in the span from the first to the close. -/
theorem IsStrict.exists_exact (h : IsStrict (first :: rest) time)
    (span : IsSpan first.time time p q) {m : Marker Float} (hm : m ∈ first :: rest) :
    ∃ r, Scalar.exact m.time = .finite r ∧ p ≤ r ∧ r ≤ q := by
  obtain ⟨r, hr⟩ := Binary64.exists_exact_eq (h.finite m hm)
  refine ⟨r, hr, ?_, (Binary64.lt_of_less hr span.stop (h.before m hm)).le⟩
  rcases List.mem_cons.mp hm with rfl | hm
  · exact (Extended.finite.inj (span.start.symm.trans hr)).le
  · exact (Binary64.lt_of_less span.start hr ((List.pairwise_cons.mp h.ordered).1 m hm)).le

/-- With more than one set in a repetition there are two of them at most: as many gets as more sets
do not fit in before the close. -/
theorem LaidOutSquare.length_le_two (h : LaidOutSquare first.time time (first :: rest) pattern)
    (strict : IsStrict (first :: rest) time) (span : IsSpan first.time time p q)
    (hsize : 2 ≤ pattern.offsets.length) :
    (offsetsOf .set first.time (first :: rest)).length ≤ 2 := by
  have hinterval := h.interval_eq
  have hdvd := period_dvd (offsetsOf .set first.time (first :: rest)) (time - first.time)
  have hlength := length_offsetsOf_le .get first.time (first :: rest)
  rw [h.length_offsets] at hsize
  rw [h.length_eq] at hlength
  have hn := hlength.trans strict.length_le
  have hgets := h.length_eq
  generalize (offsetsOf .set first.time (first :: rest)).length = n at *
  generalize period (offsetsOf .set first.time (first :: rest)) (time - first.time) = size at *
  by_contra hthree
  -- The last get is a marker before the close, but would have to begin repetition `n - 1`.
  have hlast : n - 1 < (offsetsOf .get first.time (first :: rest)).length := by omega
  obtain ⟨m, hm, -, hoffset⟩ := mem_offsetsOf.mp (List.getElem_mem hlast)
  obtain ⟨r, hr, hpr, hrq⟩ := strict.exists_exact span hm
  have he := h.get_at (n - 1) _ (List.getElem?_eq_getElem hlast)
  rw [← hoffset, hinterval, span.almostEqual_eq_false hdvd hsize (by omega) (by exact_mod_cast hn)
    hr hpr hrq] at he
  cases he

/-- The second of two gets lies close before the end of the span. -/
structure HasGetAtClose (pending : List (Marker Float)) (p q : ℚ) : Prop where
  gets : ∃ first second r, pending.filter (·.kind == .get) = [first, second] ∧
    Scalar.exact second.time = .finite r ∧ 1000 * (q - r) ≤ q - p
  sets : (pending.filter (·.kind == .set)).length = 2

theorem LaidOutSquare.hasGetAtClose (h : LaidOutSquare first.time time (first :: rest) pattern)
    (strict : IsStrict (first :: rest) time) (span : IsSpan first.time time p q)
    (hsize : 2 ≤ pattern.offsets.length) :
    pattern.offsets.length = 2 ∧ HasGetAtClose (first :: rest) p q := by
  have hle := h.length_le_two strict span hsize
  have hperiod : period (offsetsOf .set first.time (first :: rest)) (time - first.time) ≤ _ :=
    period_le h.nonempty
  rw [h.length_offsets] at hsize ⊢
  have hsets : (offsetsOf .set first.time (first :: rest)).length = 2 := by omega
  have hgets : ((first :: rest).filter (·.kind == .get)).length = 2 := by
    rw [← hsets, ← h.length_eq]
    exact (List.length_map _).symm
  obtain ⟨a, b, hab⟩ := List.length_eq_two.mp hgets
  have hb : b ∈ first :: rest :=
    (List.mem_filter.mp (hab ▸ List.mem_cons_of_mem a List.mem_cons_self)).1
  obtain ⟨r, hr, hpr, hrq⟩ := strict.exists_exact span hb
  refine ⟨by omega, ⟨a, b, r, hab, hr, span.near_of_almostEqual hr hpr hrq ?_⟩, ?_⟩
  · -- One repetition of two sets takes up the whole span.
    have hinterval := h.interval_eq
    rw [show period (offsetsOf .set first.time (first :: rest)) (time - first.time) = 2 by omega,
      hsets] at hinterval
    rw [← hinterval]
    refine h.get_at 1 _ ?_
    unfold offsetsOf
    rw [hab]
    rfl
  · rw [← hsets]
    exact (List.length_map _).symm

/-- A square pattern has a single beat, with one get and one set in each repetition; or there are
two gets, and the second is at the close. -/
theorem close_square (strict : IsStrict (first :: rest) time) (span : IsSpan first.time time p q)
    (h : close (first :: rest) time previous = some pattern)
    (square : pattern.squareshot = true) :
    (∃ tick, pattern.offsets = [tick] ∧ (first.kind = .get →
      IsPaired (offsetsOf .get first.time (first :: rest))
        (offsetsOf .set first.time (first :: rest)) tick pattern.interval)) ∨
      pattern.offsets.length = 2 ∧ HasGetAtClose (first :: rest) p q := by
  obtain ⟨h0, -, -⟩ | ⟨start, h0, hlone⟩ | ⟨start, rest', h0, hlaid⟩ := close_cases h
  · cases h0
  · cases h0
    obtain ⟨-, rfl⟩ := ofLoneSet_eq_some_iff.mp hlone
    exact .inl ⟨_, rfl, fun hk => by cases hk⟩
  · cases h0
    have hsquare := hlaid.square square
    rcases Nat.lt_or_ge pattern.offsets.length 2 with hlt | hge
    · have hpos : 0 < pattern.offsets.length :=
        hsquare.length_offsets ▸ period_pos hsquare.nonempty
      obtain ⟨tick, ht, hpaired⟩ := hsquare.isPaired (by omega)
      exact .inl ⟨tick, ht, fun _ => hpaired⟩
    · exact .inr (hsquare.hasGetAtClose strict span hge)

end

/-- Two gets, each with a set after it. -/
theorem close_square_two_pairs :
    let pending : List (Marker Float) := [⟨.get, 0⟩, ⟨.set, 1⟩, ⟨.get, 2⟩, ⟨.set, 3⟩]
    IsStrict pending 4 ∧ IsSpan 0 4 0 4 ∧ ∃ pattern, close pending 4 .empty = some pattern ∧
      pattern.squareshot = true ∧ ∃ tick, pattern.offsets = [tick] ∧
        IsPaired (offsetsOf .get 0 pending) (offsetsOf .set 0 pending) tick pattern.interval := by
  intro pending
  have strict : IsStrict pending 4 :=
    ⟨by decide +kernel, by decide +kernel, by decide +kernel⟩
  have span : IsSpan 0 4 0 4 := by
    refine ⟨by decide +kernel, by decide +kernel, ?_, ?_⟩
    · have := Binary64.least_le_two_zpow (show -1074 ≤ -130 by decide)
      norm_num at this ⊢
      linarith
    · refine le_trans ?_ (Binary64.two_pow_le_greatest (show 82 ≤ 1022 by decide))
      norm_num
  obtain ⟨pattern, hclose, hshape⟩ := Option.map_eq_some_iff.mp
    (show (close pending 4 .empty).map (fun p => (p.squareshot, p.offsets.length)) =
      some (true, 1) by decide +kernel)
  obtain ⟨hsquare, hlength⟩ := Prod.mk.inj hshape
  refine ⟨strict, span, pattern, hclose, hsquare, ?_⟩
  rcases close_square strict span hclose hsquare with ⟨tick, ht, hpaired⟩ | ⟨htwo, -⟩
  · exact ⟨tick, ht, hpaired rfl⟩
  · omega

/-- The second get lies one part in 4096 before the close. The two sets make one repetition, and yet
the pattern is square. -/
theorem close_square_get_at_close :
    let pending : List (Marker Float) := [⟨.get, 0⟩, ⟨.set, 1000⟩, ⟨.set, 2000⟩, ⟨.get, 4095⟩]
    IsStrict pending 4096 ∧ Scalar.isFinite (4096 : Float) = true ∧
      ∃ pattern, close pending 4096 .empty = some pattern ∧ pattern.squareshot = true ∧
        pattern.offsets.length = 2 := by
  intro pending
  obtain ⟨pattern, hclose, hshape⟩ := Option.map_eq_some_iff.mp
    (show (close pending 4096 .empty).map (fun p => (p.squareshot, p.offsets.length)) =
      some (true, 2) by decide +kernel)
  obtain ⟨hsquare, hlength⟩ := Prod.mk.inj hshape
  exact ⟨⟨by decide +kernel, by decide +kernel, by decide +kernel⟩, by decide +kernel,
    pattern, hclose, hsquare, hlength⟩

end Pattern

end CueCheck
