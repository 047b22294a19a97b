import CueCheck.Proofs.RateTable.Position
import CueCheck.Proofs.RateTable.Whole
import CueCheck.Proofs.Sorting.Stable
import Mathlib

/-!
# Beats within their bar

A place in a table of bars is split at the bar line first, and the beat is rounded to the thousandth
then. So the shown beat lies in the shown bar, except in the last half of a thousandth before the
next bar line. There the beat shown is the one after the last of the bar.

- **Whole numbers** (`roundHalfEven_le`, `le_roundHalfEven`): rounding stays between whole bounds.
- **Thousandths** (`exists_thousandths`, `ofBarBeat_of_thousandths`): the rounding errors of a beat
  in thousandths, and a number of thousandths which comes back.
- **The result** (`ofBars_shown`): which beats are shown, in tables of whole numbers.
-/

namespace CueCheck

open Scalar Binary64

/-! ## Whole numbers -/

theorem roundHalfEven_le {q : ℚ} {n : ℤ} (h : q < n + 1 / 2) : roundHalfEven q ≤ n := by
  have near := (roundHalfEven_half q).2
  have above : (roundHalfEven q : ℚ) < (n + 1 : ℤ) := by
    push_cast
    linarith
  exact Int.lt_add_one_iff.mp (Int.cast_lt.mp above)

theorem le_roundHalfEven {q : ℚ} {n : ℤ} (h : n - 1 / 2 < q) : n ≤ roundHalfEven q := by
  have near := (roundHalfEven_half q).1
  have below : ((n - 1 : ℤ) : ℚ) < roundHalfEven q := by
    push_cast
    linarith
  exact Int.sub_one_lt_iff.mp (Int.cast_lt.mp below)

/-! ## Thousandths -/

theorem exact_thousand : Scalar.exact (ofInt 1000 : Float) = .finite (1000 : ℕ) := by decide

/-- Two roundings take a beat to thousandths. They do not take it out of its bar. -/
theorem exists_thousandths {rest : Float} {r : ℚ} {rate : ℕ}
    (hr : Scalar.exact rest = .finite r) (start : 0 ≤ r) (lt : r < rate) (short : rate ≤ 2 ^ 40) :
    ∃ z, Scalar.exact ((rest + ofInt 1) * ofInt 1000) = .finite z ∧
      1000 ≤ z ∧ z ≤ (rate + 1) * 1000 ∧ |z - (r + 1) * 1000| < (rate + 1) * 1000 / 2 ^ 50 := by
  have bound : (rate : ℚ) ≤ 2 ^ 40 := by exact_mod_cast short
  have room {w : ℚ} (nonneg : 0 ≤ w) (le : w ≤ 2 ^ 51) : |w| < limit ∧ |w| ≤ greatest := by
    rw [abs_of_nonneg nonneg]
    exact ⟨le.trans_lt (two_pow_lt_limit (by decide)), le.trans (two_pow_le_greatest (by decide))⟩
  have sum := room (show 0 ≤ r + 1 by linarith) (by linarith)
  obtain ⟨s, hs, error⟩ := add_error hr exact_ofInt_one sum.2
  have bounds : (1 : ℕ) ≤ s ∧ s ≤ (rate + 1 : ℕ) :=
    (isRounding_add hr exact_ofInt_one sum.1).bounds hs (by push_cast; linarith)
      (by push_cast; linarith) (by omega)
  push_cast at bounds
  have product := room (show 0 ≤ s * (1000 : ℕ) by push_cast; linarith) (by push_cast; linarith)
  obtain ⟨z, hz, error'⟩ := mul_error hs exact_thousand product.2
  have bounds' : (1000 : ℕ) ≤ z ∧ z ≤ ((rate + 1) * 1000 : ℕ) :=
    (isRounding_mul hs exact_thousand product.1).bounds hz (by push_cast; linarith)
      (by push_cast; linarith) (by omega)
  push_cast at bounds' error'
  refine ⟨z, hz, bounds'.1, bounds'.2, ?_⟩
  have tiny := least_le_two_zpow (show -1074 ≤ -52 by decide)
  rw [abs_of_nonneg (show 0 ≤ r + 1 by linarith), abs_le] at error
  rw [abs_of_nonneg (show 0 ≤ s * 1000 by linarith), abs_le] at error'
  norm_num at tiny
  rw [abs_lt]
  constructor <;> linarith

/-- The scalar nearest to a number of thousandths has that number of them. -/
theorem roundHalfEven_scalarOfThousandths {n : ℕ} (h : n < 2 ^ 50) :
    ∃ u, Scalar.exact (Position.scalarOfThousandths n : Float) = .finite u ∧
      roundHalfEven (u * 1000) = n := by
  have few : n < 2 ^ 53 := by omega
  have hdef : (Position.scalarOfThousandths n : Float) =
      n.toUInt64.toFloat / Float.exactlyRepresentablePowersOfTen[3] := by
    unfold Position.scalarOfThousandths
    rw [if_neg (by omega)]
    show Float.ofScientific n true 3 = _
    unfold Float.ofScientific
    rw [dif_pos ⟨few, by decide⟩]
    rfl
  have hpower : Binary64.exact Float.exactlyRepresentablePowersOfTen[3] = .finite (1000 : ℕ) := by
    decide +kernel
  have bound : (n : ℚ) < 2 ^ 50 := by exact_mod_cast h
  have value : |(n : ℚ) / (1000 : ℕ)| = n / 1000 := by
    rw [Nat.cast_ofNat]
    exact abs_of_nonneg (by positivity)
  obtain ⟨u, hu, error⟩ := div_error (exact_toFloat few) hpower (by norm_num) (by
    rw [value]
    refine le_trans ?_ (two_pow_le_greatest (show 50 ≤ 1022 by decide))
    linarith)
  rw [value, Nat.cast_ofNat, abs_le] at error
  have tiny := least_le_two_zpow (show -1074 ≤ -20 by decide)
  norm_num at tiny
  refine ⟨u, hdef ▸ hu, le_antisymm (roundHalfEven_le ?_) (le_roundHalfEven ?_)⟩
  · push_cast
    linarith [error.2]
  · push_cast
    linarith [error.1]

/-- The number of thousandths shown for a beat of a bar is not before the first beat of the bar, nor
past the one after the last. It is that one where the beat is in the last half of a thousandth of
the bar, up to rounding, and less before. -/
theorem exists_ofBarBeat {rest : Float} {r : ℚ} {rate : ℕ} (bar : ℤ)
    (hr : Scalar.exact rest = .finite r) (start : 0 ≤ r) (lt : r < rate) (short : rate ≤ 2 ^ 40) :
    ∃ n : ℕ, Position.ofBarBeat bar rest = .ok ⟨bar + 1, n⟩ ∧
      1000 ≤ n ∧ n ≤ (rate + 1) * 1000 ∧
      (r ≤ rate - (1 / 2000 + (rate + 1) / 2 ^ 50) → n < (rate + 1) * 1000) ∧
      (rate - (1 / 2000 - (rate + 1) / 2 ^ 50) ≤ r → n = (rate + 1) * 1000) := by
  obtain ⟨z, hz, low, high, error⟩ := exists_thousandths hr start lt short
  rw [abs_lt] at error
  have least : (1000 : ℤ) ≤ roundHalfEven z := le_roundHalfEven (by push_cast; linarith)
  have most : roundHalfEven z ≤ ((rate + 1) * 1000 : ℕ) :=
    roundHalfEven_le (by push_cast; linarith)
  obtain ⟨n, hn⟩ := Int.eq_ofNat_of_zero_le (show 0 ≤ roundHalfEven z by omega)
  rw [hn] at least most
  obtain ⟨u, hu, shown⟩ := roundHalfEven_scalarOfThousandths (n := n) (by omega)
  have position : Position.ofBarBeat bar rest = .ok ⟨bar + 1, n⟩ := by
    unfold Position.ofBarBeat roundToInt
    rw [finiteValue_of_exact hz]
    show (finiteValue (Position.scalarOfThousandths (roundHalfEven z) : Float) >>= _) = _
    rw [hn, finiteValue_of_exact hu]
    exact congrArg (fun thousandths => Except.ok (Position.mk (bar + 1) thousandths)) shown
  refine ⟨n, position, by omega, by omega, fun before => ?_, fun after => ?_⟩
  · have less : roundHalfEven z ≤ ((rate + 1) * 1000 - 1 : ℤ) := roundHalfEven_le (by
      push_cast
      linarith [error.2])
    omega
  · have reached : ((rate + 1) * 1000 : ℤ) ≤ roundHalfEven z := le_roundHalfEven (by
      push_cast
      linarith [error.1])
    omega

/-! ## The result -/

namespace RateTable

/-- In a table of bars that change at whole bars to whole numbers of beats, every finite place from
the start on is shown in a bar, at a beat from one on. The beat is in the bar, unless the place lies
in the last half of a thousandth before the next bar line, up to rounding: there the beat shown is
the one after the last, which the bar does not have. -/
theorem ofBars_shown {K M : ℕ} (few : K * M ≤ 2 ^ 52) (usual : 8 ≤ M) (short : M ≤ 2 ^ 40)
    {changes : List (RateChange Float)}
    (whole : ∀ change ∈ changes, change.isValid = true → change.IsWhole K M) {v : Float} {p : ℚ}
    (hv : Scalar.exact v = .finite p) (start : 0 ≤ p) :
    let table := ofBars changes
    ∃ (bar rate : ℕ) (rest : Float) (r : ℚ) (position : Position) (beatText : String) (beat : ℚ),
      table.split v = .ok (bar, rest) ∧ Position.ofBarBeat bar rest = .ok position ∧
      position.text = toString (bar + 1 : ℤ) ++ "-" ++ beatText ∧ IsShortDecimal beatText beat ∧
      Scalar.exact (table.rateAt (ofInt bar)) = .finite rate ∧
      Scalar.exact rest = .finite r ∧ 0 ≤ r ∧ r < rate ∧
      (p < 2 ^ 52 → Scalar.exact (table.forward (ofInt bar)) = .finite (p - r)) ∧
      1 ≤ beat ∧ beat ≤ rate + 1 ∧
      (r ≤ rate - (1 / 2000 + (rate + 1) / 2 ^ 50) → beat < rate + 1) ∧
      (rate - (1 / 2000 - (rate + 1) / 2 ^ 50) ≤ r → beat = rate + 1) := by
  intro table
  have wholeValid : ∀ change ∈ changes.filter RateChange.isValid, change.IsWhole K M := by
    intro change mem
    obtain ⟨listed, valid⟩ := List.mem_filter.mp mem
    exact whole change listed valid
  have eight : Scalar.exact (defaultCrotchetsPerBar : Float) = .finite (8 : ℕ) := by decide
  obtain ⟨ofs, changed, wholes⟩ := RateChange.exists_represents wholeValid
  obtain ⟨represents, wholeRows⟩ :=
    represents_ofChanges few (by omega) changed wholes eight usual
  have continuous := isContinuous_ofChanges ofs (show (0 : ℚ) < (8 : ℕ) by norm_num)
  obtain ⟨bar, rate, rest, r, split, hrate, le, hrest, nonneg, lt, line⟩ :=
    represents.exists_split few (by omega) continuous wholeRows hv start
  obtain ⟨n, position, least, most, before, after⟩ :=
    exists_ofBarBeat bar hrest nonneg lt (le.trans short)
  have text := Position.isShortDecimal_decimalText (Int.natCast_nonneg n)
  rw [Int.cast_natCast] at text
  have least : ((1000 : ℕ) : ℚ) ≤ n := Nat.cast_le.mpr least
  have most : (n : ℚ) ≤ ((rate + 1) * 1000 : ℕ) := Nat.cast_le.mpr most
  push_cast at least most
  refine ⟨bar, rate, rest, r, ⟨bar + 1, n⟩, _, _, split, position, rfl, text, hrate, hrest, nonneg,
    lt, line, by linarith, by linarith, fun inside => ?_, fun outside => ?_⟩
  · have less : (n : ℚ) < ((rate + 1) * 1000 : ℕ) := Nat.cast_lt.mpr (before inside)
    push_cast at less
    linarith
  · rw [after outside]
    push_cast
    ring

/-- Bars of eight beats, and of four from the third on, with a change before the start that does not
count: a place a quarter past the third beat of the third bar, and one a hair before its end. -/
theorem ofBars_shown_third_bar :
    let changes : List (RateChange Float) := [⟨2, 4⟩, ⟨-1, 7⟩]
    let table := ofBars changes
    (2 * 8 ≤ 2 ^ 52 ∧ 8 ≤ 2 ^ 40) ∧
      (∀ change ∈ changes, change.isValid = true → change.IsWhole 2 8) ∧
      Scalar.exact (18.25 : Float) = .finite (73 / 4) ∧
      Scalar.exact (19.99993896484375 : Float) = .finite (20 - 1 / 2 ^ 14) ∧
      (∃ rest position beatText beat, table.split 18.25 = .ok (2, rest) ∧
        Position.ofBarBeat 2 rest = .ok position ∧ position.text = "3-" ++ beatText ∧
        IsShortDecimal beatText beat ∧ 1 ≤ beat ∧ beat < 4 + 1) ∧
      ∃ rest position beatText beat, table.split 19.99993896484375 = .ok (2, rest) ∧
        Position.ofBarBeat 2 rest = .ok position ∧ position.text = "3-" ++ beatText ∧
        IsShortDecimal beatText beat ∧ beat = 4 + 1 := by
  intro changes table
  have bounds : 2 * 8 ≤ 2 ^ 52 ∧ 8 ≤ 2 ^ 40 := by decide
  have whole : ∀ change ∈ changes, change.isValid = true → change.IsWhole 2 8 := by
    simp only [changes, List.forall_mem_cons]
    refine ⟨fun _ => ⟨2, 4, by decide, by decide, by decide +kernel, by decide +kernel⟩,
      fun valid => absurd valid (by decide +kernel), nofun⟩
  have inside : Scalar.exact (18.25 : Float) = .finite (73 / 4) := by decide +kernel
  have last : Scalar.exact (19.99993896484375 : Float) = .finite (20 - 1 / 2 ^ 14) := by
    decide +kernel
  have bars : (table.split 18.25).map Prod.fst = .ok 2 ∧
      (table.split 19.99993896484375).map Prod.fst = .ok 2 := by
    simp only [table, changes, ofBars, RateTable.ofChanges, RateTable.ofSchedule, sortBy_eq_sorted]
    decide +kernel
  have line : Scalar.exact (table.rateAt (ofInt (2 : ℕ))) = .finite 4 ∧
      Scalar.exact (table.forward (ofInt (2 : ℕ))) = .finite 16 := by
    simp only [table, changes, ofBars, RateTable.ofChanges, RateTable.ofSchedule, sortBy_eq_sorted]
    decide +kernel
  have third {v : Float} {p : ℚ} (hv : Scalar.exact v = .finite p) (start : 0 ≤ p)
      (early : p < 2 ^ 52) (two : (table.split v).map Prod.fst = .ok 2) :
      ∃ rest position beatText beat, table.split v = .ok (2, rest) ∧
        Position.ofBarBeat 2 rest = .ok position ∧ position.text = "3-" ++ beatText ∧
        IsShortDecimal beatText beat ∧ 1 ≤ beat ∧
        (p - 16 ≤ 4 - (1 / 2000 + (4 + 1) / 2 ^ 50) → beat < 4 + 1) ∧
        (4 - (1 / 2000 - (4 + 1) / 2 ^ 50) ≤ p - 16 → beat = 4 + 1) := by
    obtain ⟨bar, rate, rest, r, position, beatText, beat, split, shown, text, short, hrate, -, -, -,
      beyond, least, -, before, after⟩ := ofBars_shown bounds.1 le_rfl bounds.2 whole hv start
    rw [split] at two
    have two : (bar : ℤ) = 2 := Except.ok.inj two
    obtain rfl : bar = 2 := by exact_mod_cast two
    have four : (rate : ℚ) = 4 := Extended.finite.inj (hrate.symm.trans line.1)
    have sixteen : p - r = 16 := Extended.finite.inj ((beyond early).symm.trans line.2)
    obtain rfl : r = p - 16 := by linarith
    rw [four] at before after
    exact ⟨rest, position, beatText, beat, split, shown, text, short, least, before, after⟩
  refine ⟨bounds, whole, inside, last, ?_, ?_⟩
  · obtain ⟨rest, position, beatText, beat, split, shown, text, short, least, before, -⟩ :=
      third inside (by norm_num) (by norm_num) bars.1
    exact ⟨rest, position, beatText, beat, split, shown, text, short, least, before (by norm_num)⟩
  · obtain ⟨rest, position, beatText, beat, split, shown, text, short, -, -, after⟩ :=
      third last (by norm_num) (by norm_num) bars.2
    exact ⟨rest, position, beatText, beat, split, shown, text, short, after (by norm_num)⟩

/-- A hair before the second bar, the first bar of eight beats is shown with a ninth one. -/
theorem ofBars_ninth_beat :
    let table : RateTable Float := ofBars []
    let position : Position := ⟨1, 9000⟩
    (less zero (7.9999 : Float) = true ∧ isFinite (7.9999 : Float) = true) ∧
      (do
        let (bar, rest) ← table.split 7.9999
        (Position.ofBarBeat bar rest).mapError SplitError.notIntegral) = .ok position ∧
      position.text = "1-9" ∧ IsShortDecimal "9" 9 ∧
      Scalar.exact (table.rateAt (ofInt (position.bar - 1))) = .finite 8 ∧ ¬(9 : ℚ) < 8 + 1 := by
  intro table position
  have split : (do
      let (bar, rest) ← table.split 7.9999
      (Position.ofBarBeat bar rest).mapError SplitError.notIntegral) = .ok position := by
    simp only [table, ofBars, RateTable.ofChanges, RateTable.ofSchedule, sortBy_eq_sorted]
    decide +kernel
  have rate : Scalar.exact (table.rateAt (ofInt (position.bar - 1))) = .finite 8 := by
    simp only [table, ofBars, RateTable.ofChanges, RateTable.ofSchedule, sortBy_eq_sorted]
    decide +kernel
  have place : less zero (7.9999 : Float) = true ∧ isFinite (7.9999 : Float) = true := by
    decide +kernel
  exact ⟨place, split, by decide +kernel, .whole 9, rate, by norm_num⟩

end RateTable

end CueCheck
