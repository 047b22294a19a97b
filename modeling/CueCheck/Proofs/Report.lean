import CueCheck.Proofs.Finding
import CueCheck.Report

/-!
# What a report says

A report that is written at all has exactly one line for each kind with findings, in reporting
order, and as many positions in it as there are findings of the kind.

- **Lines** (`IsLineOf`, `forall₂_reportLines`): each line is the line of its kind.
- **Newlines** (`count_newline_reportLine`): a line has one newline only, at its end.
- **The report** (`report_lines`, `report_eq_empty_iff`): it has those lines, and is empty iff
  nothing was found.
-/

namespace CueCheck

variable {α : Type} [Scalar α]

/-! ## Lines -/

/-- The line for a kind in a report: one position for each of its times. -/
def IsLineOf (level : Level α) (findings : Findings α) (kind : FindingKind) (line : String) :
    Prop :=
  ∃ positions, List.Forall₂ (fun time position =>
      positionOf level.bars level.tempos time = .ok position) (findings.times kind) positions ∧
    line = reportLine kind positions

/-- Where a step goes well for every entry of a list, each result is that of its entry. -/
theorem forall₂_of_mapM {β γ ε : Type} {f : β → Except ε γ} {xs : List β} {ys : List γ}
    (h : xs.mapM f = .ok ys) : List.Forall₂ (fun x y => f x = .ok y) xs ys := by
  induction xs generalizing ys with
  | nil =>
    cases h
    exact .nil
  | cons x xs ih =>
    rw [List.mapM_cons] at h
    cases hx : f x with
    | error e =>
      rw [hx] at h
      cases h
    | ok y =>
      cases hxs : xs.mapM f with
      | error e =>
        rw [hx, hxs] at h
        cases h
      | ok rest =>
        rw [hx, hxs] at h
        cases h
        exact .cons hx (ih hxs)

theorem forall₂_reportLines {level : Level α} {findings : Findings α} {kinds : List FindingKind}
    {lines : List String} (h : reportLines level.bars level.tempos findings kinds = .ok lines) :
    List.Forall₂ (IsLineOf level findings)
      (kinds.filter fun kind => !(findings.times kind).isEmpty) lines := by
  induction kinds generalizing lines with
  | nil =>
    cases h
    exact .nil
  | cons kind kinds ih =>
    unfold reportLines at h
    by_cases he : (findings.times kind).isEmpty = true
    · rw [List.filter_cons_of_neg (by simp [he])]
      exact ih (by simpa [he] using h)
    · rw [List.filter_cons_of_pos (by simp [he])]
      simp only [he] at h
      cases hp : (findings.times kind).mapM (positionOf level.bars level.tempos) with
      | error e =>
        rw [hp] at h
        cases h
      | ok positions =>
        cases hl : reportLines level.bars level.tempos findings kinds with
        | error e =>
          rw [hp, hl] at h
          cases h
        | ok rest =>
          rw [hp, hl] at h
          cases h
          exact .cons ⟨positions, forall₂_of_mapM hp, rfl⟩ (ih hl)

/-! ## Newlines -/

@[simp] theorem newline_notMem_toDigits (n : Nat) : '\n' ∉ Nat.toDigits 10 n := by
  intro h
  exact absurd (Nat.isDigit_of_mem_toDigits (by decide) (by decide) h) (by decide)

@[simp] theorem newline_notMem_repr (n : Int) : '\n' ∉ n.repr.toList := by
  cases n with
  | ofNat n =>
    show '\n' ∉ n.repr.toList
    simp
  | negSucc n =>
    show '\n' ∉ ("-" ++ (n + 1).repr).toList
    simp

namespace Position

@[simp] theorem newline_notMem_fractionText (n : Nat) : '\n' ∉ (fractionText n).toList := by
  unfold fractionText
  split_ifs <;> simp

@[simp] theorem newline_notMem_decimalText (n : Int) : '\n' ∉ (decimalText n).toList := by
  unfold decimalText
  simp only [String.toList_append, List.mem_append]
  split_ifs <;> simp

@[simp] theorem newline_notMem_text (position : Position) : '\n' ∉ position.text.toList := by
  unfold text
  simp

theorem newline_notMem_intercalate : ∀ positions : List Position,
    '\n' ∉ (", ".intercalate (positions.map text)).toList
  | [] => by simp
  | [position] => by simp
  | position :: next :: rest => by
    have later := newline_notMem_intercalate (next :: rest)
    rw [List.map_cons] at later
    rw [List.map_cons, List.map_cons, String.intercalate_cons_cons]
    simp only [String.toList_append, List.mem_append, not_or]
    exact ⟨⟨position.newline_notMem_text, by decide⟩, later⟩

end Position

/-- The only newline of a line is at its end. -/
theorem count_newline_reportLine (kind : FindingKind) (positions : List Position) :
    (reportLine kind positions).toList.count '\n' = 1 := by
  have words : '\n' ∉ kind.description.toList := by
    cases kind <;> decide
  have shown := Position.newline_notMem_intercalate positions
  unfold reportLine
  simp only [String.toList_append, List.count_append, List.count_eq_zero_of_not_mem words,
    List.count_eq_zero_of_not_mem shown]
  rfl

/-! ## The report -/

section Report

variable {level : Level α} {findings : Findings α}

/-- Lines of kinds, put together, have as many newlines as there are kinds. -/
theorem count_newline_join {kinds : List FindingKind} {lines : List String}
    (h : List.Forall₂ (IsLineOf level findings) kinds lines) :
    (String.join lines).toList.count '\n' = kinds.length := by
  induction h with
  | nil => rfl
  | cons hl _ ih =>
    obtain ⟨positions, -, rfl⟩ := hl
    rw [String.join_cons, String.toList_append, List.count_append, count_newline_reportLine, ih,
      List.length_cons, Nat.add_comm]

/-- A report has one line for each kind with findings, in reporting order. -/
theorem report_lines {text : String} (h : report level findings = .ok text) :
    ∃ lines, text = String.join lines ∧
      List.Forall₂ (IsLineOf level findings) findings.foundKinds lines := by
  unfold report at h
  cases hl : reportLines level.bars level.tempos findings FindingKind.all with
  | error e =>
    rw [hl] at h
    cases h
  | ok lines =>
    rw [hl] at h
    cases h
    exact ⟨lines, rfl, forall₂_reportLines hl⟩

/-- A report is empty iff nothing was found. -/
theorem report_eq_empty_iff {text : String} (h : report level findings = .ok text) :
    text = "" ↔ findings.isPresent = false := by
  obtain ⟨lines, rfl, hl⟩ := report_lines h
  have newlines := count_newline_join hl
  rw [← findings.foundKinds_eq_nil_iff]
  constructor
  · intro empty
    rw [empty] at newlines
    exact List.length_eq_zero_iff.mp newlines.symm
  · intro none
    rw [none] at hl
    cases hl
    rfl

end Report

end CueCheck
