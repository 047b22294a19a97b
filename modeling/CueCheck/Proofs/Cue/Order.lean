import CueCheck.Cue.Playback
import CueCheck.Proofs.Binary64
import CueCheck.Proofs.Sorting

/-!
# Reports show nothing of the order of emissions

Over binary64 numbers, sorting leaves entries that tie in the order in which they came about. Their
ranks do not depend on that order, and no report tells entries of one rank apart.

- **Keys of beats** (`beatKey`): wherever finite scalars compare by a rank, finite beats are sorted
  by the ranks of their times, then of their neighbours, a missing neighbour below all
  (`precedes_eq_beatKey`). `beatRank` is the key for binary64 numbers.
- **Reports** (`map_exact_expected_of_perm`, `map_exact_sortedTimes_of_perm`): emissions that are
  permutations of each other lead to the same numbers.
-/

namespace CueCheck

open Scalar (isFinite)

/-- A beat with another reading of its times. -/
def ExpectedBeat.map {α β : Type} (f : α → β) (beat : ExpectedBeat α) : ExpectedBeat β where
  time := f beat.time
  prev := beat.prev.map f
  next := beat.next.map f

/-- The time of a beat and the times of its neighbours are finite. -/
structure ExpectedBeat.IsFinite {α : Type} [Scalar α] (beat : ExpectedBeat α) : Prop where
  time : isFinite beat.time = true
  prev : ∀ t ∈ beat.prev, isFinite t = true
  next : ∀ t ∈ beat.next, isFinite t = true

instance {α : Type} [Scalar α] (beat : ExpectedBeat α) : Decidable beat.IsFinite :=
  decidable_of_iff (isFinite beat.time = true ∧ (∀ t ∈ beat.prev, isFinite t = true) ∧
    ∀ t ∈ beat.next, isFinite t = true)
    ⟨fun ⟨ht, hp, hn⟩ => ⟨ht, hp, hn⟩, fun ⟨ht, hp, hn⟩ => ⟨ht, hp, hn⟩⟩

/-! ## Keys of beats -/

section Key

variable {α K : Type} [Scalar α] [LinearOrder K] {rank : α → K}

/-- Finite scalars compare as their ranks do. -/
structure RanksFinite (rank : α → K) : Prop where
  less_eq {x y : α} (hx : isFinite x = true) (hy : isFinite y = true) :
    Scalar.less x y = decide (rank x < rank y)
  beq_eq {x y : α} (hx : isFinite x = true) (hy : isFinite y = true) :
    (x == y) = decide (rank x = rank y)

/-- The rank of a neighbour; a missing one comes first. -/
def neighbourKey (rank : α → K) (neighbour : Option α) : WithBot K :=
  neighbour.elim ⊥ fun x => (rank x : WithBot K)

/-- The ranks of a beat, in the order in which they count. -/
def beatKey (rank : α → K) (beat : ExpectedBeat α) : K ×ₗ WithBot K ×ₗ WithBot K :=
  toLex (rank beat.time, toLex (neighbourKey rank beat.next, neighbourKey rank beat.prev))

theorem neighbourLess_eq (hr : RanksFinite rank) {a b : Option α}
    (ha : ∀ t ∈ a, isFinite t = true) (hb : ∀ t ∈ b, isFinite t = true) :
    ExpectedBeat.neighbourLess a b = decide (neighbourKey rank a < neighbourKey rank b) := by
  rcases a with _ | x <;> rcases b with _ | y
  · exact (decide_eq_false (lt_irrefl (⊥ : WithBot K))).symm
  · obtain ⟨q, hq⟩ := Binary64.exists_exact_eq (hb y rfl)
    simp only [ExpectedBeat.neighbourLess, hq]
    exact (decide_eq_true (WithBot.bot_lt_coe _)).symm
  · exact (decide_eq_false not_lt_bot).symm
  · exact (hr.less_eq (ha x rfl) (hb y rfl)).trans (decide_eq_decide.mpr WithBot.coe_lt_coe.symm)

theorem neighbourTies_eq (hr : RanksFinite rank) {a b : Option α}
    (ha : ∀ t ∈ a, isFinite t = true) (hb : ∀ t ∈ b, isFinite t = true) :
    ExpectedBeat.neighbourTies a b = decide (neighbourKey rank a = neighbourKey rank b) := by
  rcases a with _ | x <;> rcases b with _ | y
  · exact (decide_eq_true rfl).symm
  · obtain ⟨q, hq⟩ := Binary64.exists_exact_eq (hb y rfl)
    simp only [ExpectedBeat.neighbourTies, Scalar.isNegativeInfinity, hq]
    exact (decide_eq_false WithBot.bot_ne_coe).symm
  · obtain ⟨q, hq⟩ := Binary64.exists_exact_eq (ha x rfl)
    simp only [ExpectedBeat.neighbourTies, Scalar.isNegativeInfinity, hq]
    exact (decide_eq_false WithBot.coe_ne_bot).symm
  · exact (hr.beq_eq (ha x rfl) (hb y rfl)).trans (decide_eq_decide.mpr WithBot.coe_inj.symm)

variable {a b : ExpectedBeat α}

omit [Scalar α] in
theorem beatKey_lt_iff : beatKey rank a < beatKey rank b ↔
    rank a.time < rank b.time ∨ rank a.time = rank b.time ∧
      (neighbourKey rank a.next < neighbourKey rank b.next ∨
        neighbourKey rank a.next = neighbourKey rank b.next ∧
          neighbourKey rank a.prev < neighbourKey rank b.prev) := by
  unfold beatKey
  rw [Prod.Lex.toLex_lt_toLex, Prod.Lex.toLex_lt_toLex]

omit [Scalar α] in
theorem time_le_of_beatKey_le (h : beatKey rank a ≤ beatKey rank b) :
    rank a.time ≤ rank b.time := by
  unfold beatKey at h
  rcases Prod.Lex.toLex_le_toLex.mp h with h | h
  · exact le_of_lt h
  · exact le_of_eq h.1

/-- Finite beats are sorted by their keys. -/
theorem precedes_eq_beatKey (hr : RanksFinite rank) (ha : a.IsFinite) (hb : b.IsFinite) :
    a.precedes b = decide (beatKey rank a < beatKey rank b) := by
  unfold ExpectedBeat.precedes
  rw [hr.beq_eq ha.time hb.time, neighbourTies_eq hr ha.next hb.next,
    neighbourLess_eq hr ha.prev hb.prev, neighbourLess_eq hr ha.next hb.next,
    hr.less_eq ha.time hb.time, Bool.eq_iff_iff,
    decide_eq_true_iff (p := beatKey rank a < beatKey rank b), beatKey_lt_iff]
  by_cases ht : rank a.time = rank b.time
  · by_cases hn : neighbourKey rank a.next = neighbourKey rank b.next
    · simp [ht, hn]
    · simp [ht, hn]
  · simp [ht]

end Key

namespace Binary64

/-- The rank of a neighbour; a missing one comes first. -/
def neighbourRank (neighbour : Option Float) : WithBot Rank :=
  neighbour.elim ⊥ fun x => (rank x : WithBot Rank)

/-- The rank of a beat. -/
def beatRank (beat : ExpectedBeat Float) : Rank ×ₗ WithBot Rank ×ₗ WithBot Rank :=
  toLex (rank beat.time, toLex (neighbourRank beat.next, neighbourRank beat.prev))

theorem ranksFinite_rank : RanksFinite rank where
  less_eq hx hy := less_eq (exact_ne_nan hx) (exact_ne_nan hy)
  beq_eq hx hy := beq_eq (exact_ne_nan hx) (exact_ne_nan hy)

end Binary64

open Binary64

namespace ExpectedBeat

variable {a b c d : ExpectedBeat Float}

theorem beatRank_eq_iff : beatRank a = beatRank b ↔
    rank a.time = rank b.time ∧ neighbourRank a.next = neighbourRank b.next ∧
      neighbourRank a.prev = neighbourRank b.prev := by
  unfold beatRank
  rw [toLex_inj, Prod.mk.injEq, toLex_inj, Prod.mk.injEq]

/-- Finite beats are sorted by rank. -/
theorem precedes_eq (ha : a.IsFinite) (hb : b.IsFinite) :
    a.precedes b = decide (beatRank a < beatRank b) :=
  precedes_eq_beatKey ranksFinite_rank ha hb

theorem neighbours_of_rank_eq {a b : Option Float} (h : neighbourRank a = neighbourRank b) :
    (a = none ∧ b = none) ∨ ∃ x y, a = some x ∧ b = some y ∧ rank x = rank y := by
  rcases a with _ | x <;> rcases b with _ | y
  · exact .inl ⟨rfl, rfl⟩
  · cases h
  · cases h
  · exact .inr ⟨x, y, rfl, rfl, WithBot.coe_inj.mp h⟩

theorem sameNeighbour_congr {a b c d : Option Float} (ha : ∀ t ∈ a, isFinite t = true)
    (hb : ∀ t ∈ b, isFinite t = true) (hc : ∀ t ∈ c, isFinite t = true)
    (hd : ∀ t ∈ d, isFinite t = true) (hac : neighbourRank a = neighbourRank c)
    (hbd : neighbourRank b = neighbourRank d) : sameNeighbour a b = sameNeighbour c d := by
  rcases neighbours_of_rank_eq hac with ⟨rfl, rfl⟩ | ⟨x, z, rfl, rfl, hxz⟩ <;>
    rcases neighbours_of_rank_eq hbd with ⟨rfl, rfl⟩ | ⟨y, w, rfl, rfl, hyw⟩
  · rfl
  · rfl
  · rfl
  · exact almostEqual_congr (exact_ne_nan (ha x rfl)) (exact_ne_nan (hb y rfl))
      (exact_ne_nan (hc z rfl)) (exact_ne_nan (hd w rfl)) hxz hyw

/-- Whether two finite beats are the same depends on their ranks only. -/
theorem same_congr (ha : a.IsFinite) (hb : b.IsFinite) (hc : c.IsFinite) (hd : d.IsFinite)
    (hac : beatRank a = beatRank c) (hbd : beatRank b = beatRank d) : a.same b = c.same d := by
  obtain ⟨hact, hacn, hacp⟩ := beatRank_eq_iff.mp hac
  obtain ⟨hbdt, hbdn, hbdp⟩ := beatRank_eq_iff.mp hbd
  unfold same
  rw [almostEqual_congr (exact_ne_nan ha.time) (exact_ne_nan hb.time) (exact_ne_nan hc.time)
      (exact_ne_nan hd.time) hact hbdt,
    sameNeighbour_congr ha.prev hb.prev hc.prev hd.prev hacp hbdp,
    sameNeighbour_congr ha.next hb.next hc.next hd.next hacn hbdn]

theorem map_exact_neighbour {a b : Option Float} (ha : ∀ t ∈ a, isFinite t = true)
    (hb : ∀ t ∈ b, isFinite t = true) (h : neighbourRank a = neighbourRank b) :
    a.map Scalar.exact = b.map Scalar.exact := by
  rcases neighbours_of_rank_eq h with ⟨rfl, rfl⟩ | ⟨x, y, rfl, rfl, hxy⟩
  · rfl
  · exact congrArg some
      (exact_eq_of_rank_eq (exact_ne_nan (ha x rfl)) (exact_ne_nan (hb y rfl)) hxy)

/-- Finite beats of one rank are the same numbers. -/
theorem map_exact_eq (ha : a.IsFinite) (hb : b.IsFinite) (h : beatRank a = beatRank b) :
    a.map Scalar.exact = b.map Scalar.exact := by
  obtain ⟨ht, hn, hp⟩ := beatRank_eq_iff.mp h
  have htime : Scalar.exact a.time = Scalar.exact b.time :=
    exact_eq_of_rank_eq (exact_ne_nan ha.time) (exact_ne_nan hb.time) ht
  unfold ExpectedBeat.map
  rw [htime, map_exact_neighbour ha.prev hb.prev hp, map_exact_neighbour ha.next hb.next hn]

end ExpectedBeat

/-! ## Reports -/

/-- The beats of a report, as numbers, do not depend on the order in which they came. -/
theorem map_exact_expected_of_perm {xs ys : List (ExpectedBeat Float)} (hp : xs.Perm ys)
    (finite : ∀ beat ∈ xs, beat.IsFinite) :
    (collapseBy ExpectedBeat.same (sortBy ExpectedBeat.precedes xs)).map (·.map Scalar.exact) =
      (collapseBy ExpectedBeat.same (sortBy ExpectedBeat.precedes ys)).map
        (·.map Scalar.exact) := by
  have finite' : ∀ beat ∈ ys, beat.IsFinite := fun beat hb => finite beat (hp.mem_iff.mpr hb)
  have sorts : SortsByKey ExpectedBeat.precedes beatRank xs := by
    intro a ha b hb
    exact ExpectedBeat.precedes_eq (finite a ha) (finite b hb)
  refine map_collapseBy_sortBy (hp.map _) sorts (sorts.of_perm hp) ?_ ?_
  · intro a ha b hb c hc d hd
    exact ExpectedBeat.same_congr (finite a ha) (finite b hb) (finite' c hc) (finite' d hd)
  · intro a ha b hb
    exact ExpectedBeat.map_exact_eq (finite a ha) (finite' b hb)

/-- Nor do the times; they depend on the ranks alone. -/
theorem map_exact_sortedTimes {xs ys : List Float} (hp : (xs.map rank).Perm (ys.map rank))
    (finite : ∀ t ∈ xs, isFinite t = true) (finite' : ∀ t ∈ ys, isFinite t = true) :
    (sortedTimes xs).map Scalar.exact = (sortedTimes ys).map Scalar.exact := by
  have sorts {ts : List Float} (h : ∀ t ∈ ts, isFinite t = true) :
      SortsByKey Scalar.less rank ts := fun a ha b hb => ranksFinite_rank.less_eq (h a ha) (h b hb)
  have number {ts : List Float} (h : ∀ t ∈ ts, isFinite t = true) (t : Float) (ht : t ∈ ts) :
      Binary64.exact t ≠ .nan := exact_ne_nan (h t ht)
  unfold sortedTimes ascending
  refine map_collapseBy_sortBy hp (sorts finite) (sorts finite') ?_ ?_
  · intro a ha b hb c hc d hd
    exact almostEqual_congr (number finite a ha) (number finite b hb) (number finite' c hc)
      (number finite' d hd)
  · intro a ha b hb
    exact exact_eq_of_rank_eq (number finite a ha) (number finite' b hb)

theorem map_exact_sortedTimes_of_perm {xs ys : List Float} (hp : xs.Perm ys)
    (finite : ∀ t ∈ xs, isFinite t = true) :
    (sortedTimes xs).map Scalar.exact = (sortedTimes ys).map Scalar.exact :=
  map_exact_sortedTimes (hp.map rank) finite fun t ht => finite t (hp.mem_iff.mpr ht)

end CueCheck
