import CueCheck.CommandLine.Answer
import CueCheck.Proofs.LevelText.Reading
import CueCheck.Proofs.Report

/-!
# How a request ends

A request that gets as far as a report ends with it: the report is printed, and the exit status is
one unless it is empty.

- **Reports** (`Outcome.IsReport`, `reportOn_eq_ok_iff`): what the report of a level makes of an
  outcome.
- **Texts** (`answerText_eq_ok_iff`): the same of the level of a text.
- **Requests** (`Request.Reaches`, `Request.run_eq_ok_iff`): the same of a request that loads
  options and reads the text of a level, whatever there is outside.
-/

namespace CueCheck

section Result

variable {ε δ β : Type} {x : Except ε β} {f : ε → δ} {b : β}

theorem mapError_eq_ok_iff : x.mapError f = .ok b ↔ x = .ok b := by
  cases x <;> simp [Except.mapError]

theorem toOption_eq_some_iff : x.toOption = some b ↔ x = .ok b := by
  cases x <;> simp [Except.toOption]

end Result

variable {α : Type} [Scalar α] {options : Options} {level : Level α} {outcome : Outcome}

/-! ## Reports -/

/-- The outcome is the report of a level: its text, and status one unless that is empty. -/
def Outcome.IsReport (outcome : Outcome) (options : Options) (level : Level α) : Prop :=
  report level (checkLevel options level).findings = .ok outcome.output ∧
    outcome.status = if outcome.output = "" then 0 else 1

/-- There are findings iff the report is not empty. -/
theorem status_eq {text : String}
    (h : report level (checkLevel options level).findings = .ok text) :
    (if (checkLevel options level).findings.isPresent then 1 else 0) =
      if text = "" then 0 else 1 := by
  by_cases empty : text = ""
  · rw [if_pos empty, (report_eq_empty_iff h).mp empty]
    rfl
  · have present : (checkLevel options level).findings.isPresent = true := by
      simpa using mt (report_eq_empty_iff h).mpr empty
    rw [if_neg empty, present]
    rfl

theorem reportOn_eq_ok_iff :
    reportOn options level = .ok outcome ↔ outcome.IsReport options level := by
  unfold reportOn Outcome.IsReport
  simp only
  cases h : report level (checkLevel options level).findings with
  | error e => simp [bind, Except.bind]
  | ok text =>
    show Except.ok (Outcome.mk _ text) = .ok outcome ↔ _
    rw [status_eq h]
    constructor
    · rintro ⟨⟩
      exact ⟨rfl, rfl⟩
    · rintro ⟨⟨⟩, status⟩
      rw [← status]

/-! ## Texts -/

section Answer

variable {ε : Type} {text : List Char}

theorem ofText_nil : (Level.ofText [] : Except LevelError (Level α)) = .error .noEvents := by
  show Level.ofValue (LevelText.valueAt []).1 = _
  rw [LevelText.valueAt_eq]
  rfl

theorem answerText_of_decoded (decoded : Level.ofText text = .ok level) :
    answerText α options text =
      (reportOn options level).mapError (Failure.reporting (ε := ε)) := by
  have nonempty : text.isEmpty = false := by
    cases text with
    | nil => cases ofText_nil.symm.trans decoded
    | cons => rfl
  unfold answerText
  rw [nonempty, decoded]
  rfl

theorem answerText_eq_ok_iff (decoded : Level.ofText text = .ok level) :
    (answerText α options text : Except (Failure ε) Outcome) = .ok outcome ↔
      outcome.IsReport options level := by
  rw [answerText_of_decoded decoded, mapError_eq_ok_iff, reportOn_eq_ok_iff]

/-! ## Requests -/

/-- A request gets as far as the report of a level: options are loaded from the settings that it
names, and what it reads for the level is a text that is decoded to it. -/
inductive Request.Reaches (request : Request) (environment : Environment ε) (options : Options)
    (level : Level α) : Prop
  | intro {settings : Option (List Char)} {text : List Char}
      (read : request.levelText? environment = some (.ok text))
      (named : request.settings environment = .ok settings)
      (loaded : environment.load settings request.allOverrides = .ok (some options))
      (decoded : Level.ofText text = .ok level)

theorem Request.run_eq_ok_iff {environment : Environment ε} {request : Request}
    (h : request.Reaches environment options level) :
    request.run α environment = .ok outcome ↔ outcome.IsReport options level := by
  obtain ⟨read, named, loaded, decoded⟩ := h
  rw [← answerText_eq_ok_iff (ε := ε) decoded]
  unfold run
  simp only [read, named, bind, Except.bind, loaded, Except.mapError]

end Answer

end CueCheck
