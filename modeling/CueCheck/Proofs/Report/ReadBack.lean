import CueCheck.Proofs.RateTable.Position
import CueCheck.Proofs.RateTable.Split
import CueCheck.Proofs.Finding
import CueCheck.Proofs.Sorting.Stable
import CueCheck.Report
import Mathlib

/-!
# Reading a report back

Over exact rationals, with bars that change length at whole bars, a report shows every finding at a
position, and the position gives the beat of the finding back.

- **Positions** (`positionOf_rat`): a time is shown at the bar that it falls in.
- **Reading** (`RateTable.ReadsBack`, `readsBack_text`): the shown bar and beat name a beat that is
  not more than half a thousandth from that of the time.
- **The report** (`report_reads_back`): it is written, and every text in it reads back.
-/

namespace CueCheck

/-! ## Positions -/

section Positions

variable {bars : RateTable ℚ} (h : bars.IsContinuous) (whole : bars.HasWholeKeys)
  (tempos : RateTable ℚ)

/-- Where a beat is shown: in the bar that it falls in, at the thousandth next to it. -/
def RateTable.positionOfBeat (bars : RateTable ℚ) (beat : ℚ) : Position :=
  let bar := ⌊bars.inverse beat⌋
  ⟨bar + 1, roundHalfEven ((beat - bars.forward bar + 1) * 1000)⟩

include h whole

theorem positionOf_rat (time : ℚ) :
    positionOf bars tempos time = .ok (bars.positionOfBeat (tempos.inverse time)) := by
  unfold positionOf
  rw [RateTable.split_eq h whole]
  exact congrArg (Except.mapError .notIntegral) (Position.ofBarBeat_rat _ _)

/-! ## Reading -/

/-- A text that names a bar, counted from one, and a beat within it: together, not more than half a
thousandth from the beat of the time. -/
def RateTable.ReadsBack (bars tempos : RateTable ℚ) (time : ℚ) (shown : String) : Prop :=
  ∃ (bar : ℤ) (beatText : String) (beat : ℚ),
    shown = toString bar ++ "-" ++ beatText ∧ IsShortDecimal beatText beat ∧
      |bars.forward ((bar : ℚ) - 1) + (beat - 1) - tempos.inverse time| ≤ 1 / 2000

theorem readsBack_text (time : ℚ) :
    bars.ReadsBack tempos time (bars.positionOfBeat (tempos.inverse time)).text := by
  set beat := tempos.inverse time
  have rest := (RateTable.rest_bounds h whole beat).1
  have near := Position.thousandths_near (beat - bars.forward ⌊bars.inverse beat⌋)
  have beatText := Position.isShortDecimal_decimalText
    (Position.roundHalfEven_nonneg (q := (beat - bars.forward ⌊bars.inverse beat⌋ + 1) * 1000)
      (by positivity))
  refine ⟨⌊bars.inverse beat⌋ + 1, _, _, rfl, beatText, ?_⟩
  rwa [Int.cast_add, Int.cast_one, add_sub_cancel_right, add_sub_assoc, add_comm,
    sub_add]

end Positions

/-! ## The report -/

/-- Where every time has a position, a report can be written. -/
theorem reportLines_eq {α : Type} [Scalar α] {bars tempos : RateTable α} {position : α → Position}
    (h : ∀ time, positionOf bars tempos time = .ok (position time)) (findings : Findings α)
    (kinds : List FindingKind) :
    reportLines bars tempos findings kinds =
      .ok ((kinds.filter fun kind => !(findings.times kind).isEmpty).map fun kind =>
        reportLine kind ((findings.times kind).map position)) := by
  have positions (times : List α) :
      times.mapM (positionOf bars tempos) = .ok (times.map position) := by
    rw [funext h]
    exact List.mapM_pure
  induction kinds with
  | nil => rfl
  | cons kind kinds ih =>
    simp only [reportLines, ih, positions]
    by_cases none : (findings.times kind).isEmpty = true
    · rw [List.filter_cons_of_neg (by simp [none])]
      simp only [none, if_true]
    · rw [List.filter_cons_of_pos (by simp [none])]
      simp only [none]
      rfl

/-- A report is written whatever was found, with one line for each kind with findings. Each finding
is shown as a bar and a short decimal beat within it that give its beat back. Nothing is asked of
the tempos, which only say what that beat is. -/
theorem report_reads_back {changes : List (RateChange ℚ)} {default : ℚ}
    (whole : ∀ change ∈ changes, ∃ n : ℤ, change.key = n) (positive : 0 < default)
    {level : Level ℚ} (bars : level.bars = RateTable.ofChanges changes default)
    (findings : Findings ℚ) :
    ∃ lines, report level findings = .ok (String.join lines) ∧
      List.Forall₂ (fun kind line => ∃ shown : List String,
          line = kind.description ++ ": " ++ ", ".intercalate shown ++ "\n" ∧
            List.Forall₂ (level.bars.ReadsBack level.tempos) (findings.times kind) shown)
        findings.foundKinds lines := by
  have continuous : level.bars.IsContinuous :=
    bars ▸ RateTable.isContinuous_ofChanges changes positive
  have wholeKeys : level.bars.HasWholeKeys := bars ▸ RateTable.hasWholeKeys_ofChanges whole default
  have positions := positionOf_rat continuous wholeKeys level.tempos
  refine ⟨_, congrArg (Except.map String.join) (reportLines_eq positions findings _), ?_⟩
  rw [List.forall₂_map_right_iff]
  refine List.forall₂_same.mpr fun kind _ => ?_
  refine ⟨_, rfl, ?_⟩
  rw [List.map_map, List.forall₂_map_right_iff, List.forall₂_same]
  exact fun time _ => readsBack_text continuous wholeKeys level.tempos time

/-- Bars of four beats, from the second on of two: one time falls before the first bar, and the
other is half a beat into the third. -/
theorem report_reads_back_changed_bars :
    let changes : List (RateChange ℚ) := [⟨1, 2⟩]
    let level : Level ℚ :=
      ⟨RateTable.ofChanges changes 4, ⟨⟨0, 0, 1 / 2⟩, []⟩, [], [], [], []⟩
    let findings : Findings ℚ :=
      ⟨fun kind => if kind = .missingHit then [-1 / 3, 13 / 4] else []⟩
    (∀ change ∈ changes, ∃ n : ℤ, change.key = n) ∧ (0 : ℚ) < 4 ∧
      ∃ lines, String.join lines = "Missing hit: 0-4.333, 3-1.5\n" ∧
        List.Forall₂ (fun kind line => ∃ shown : List String,
            line = kind.description ++ ": " ++ ", ".intercalate shown ++ "\n" ∧
              List.Forall₂ (level.bars.ReadsBack level.tempos) (findings.times kind) shown)
          [.missingHit] lines := by
  intro changes level findings
  have whole : ∀ change ∈ changes, ∃ n : ℤ, change.key = n :=
    List.forall_mem_singleton.mpr ⟨1, rfl⟩
  have text : report level findings = .ok "Missing hit: 0-4.333, 3-1.5\n" := by
    simp only [report, level, changes, RateTable.ofChanges, RateTable.ofSchedule, sortBy_eq_sorted]
    decide +kernel
  have positive : (0 : ℚ) < 4 := by norm_num
  have bars : level.bars = RateTable.ofChanges changes 4 := rfl
  obtain ⟨lines, written, shown⟩ := report_reads_back whole positive bars findings
  exact ⟨whole, positive, lines, Except.ok.inj (written.symm.trans text), shown⟩

end CueCheck
