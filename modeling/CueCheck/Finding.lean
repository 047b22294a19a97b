import CueCheck.Tolerance

/-!
# Findings

What a check reports, by kind. Every kind has its place in the reporting order.

* `Findings` gives the times found of each kind; findings about different things are put together
  with `++`.
* `sortFindings` orders single findings by kind, then by time, and drops repeats up to tolerance.
* `Findings.list` is the list of all findings, `Findings.count` their number.
-/

namespace CueCheck

open Scalar

/-- What may be wrong with a level, in reporting order. -/
inductive FindingKind where
  | invalidCue
  | unexpectedSkipshot
  | overlappingSkipshot
  | unexpectedFreezeshot
  | overlappingFreezeshot
  | unexpectedBurnshot
  | overlappingBurnshot
  | uncuedHit
  | skippedHit
  | missingHit
  | hitOnHoldRelease
  | overlappingHold
deriving DecidableEq, Repr

namespace FindingKind

/-- All kinds, in reporting order. -/
def all : List FindingKind :=
  [invalidCue, unexpectedSkipshot, overlappingSkipshot, unexpectedFreezeshot, overlappingFreezeshot,
    unexpectedBurnshot, overlappingBurnshot, uncuedHit, skippedHit, missingHit, hitOnHoldRelease,
    overlappingHold]

/-- A kind's place in the reporting order. -/
def priority (kind : FindingKind) : Nat :=
  all.idxOf kind

/-- The words for a kind. -/
def description : FindingKind → String
  | invalidCue => "Invalid cue"
  | unexpectedSkipshot => "Unexpected skipshot"
  | overlappingSkipshot => "Overlapping skipshots"
  | unexpectedFreezeshot => "Unexpected freezeshot"
  | overlappingFreezeshot => "Overlapping freezeshots"
  | unexpectedBurnshot => "Unexpected burnshot"
  | overlappingBurnshot => "Overlapping burnshots"
  | uncuedHit => "Uncued hit"
  | skippedHit => "Skipped hit"
  | missingHit => "Missing hit"
  | hitOnHoldRelease => "Hit on hold release"
  | overlappingHold => "Overlapping holds"

theorem mem_all (kind : FindingKind) : kind ∈ all := by cases kind <;> decide

theorem all_getElem?_priority (kind : FindingKind) : all[kind.priority]? = some kind := by
  cases kind <;> rfl

theorem priority_injective {a b : FindingKind} (h : a.priority = b.priority) : a = b := by
  have ha := all_getElem?_priority a
  rw [h, all_getElem?_priority b] at ha
  exact (Option.some.inj ha).symm

end FindingKind

/-- One finding. -/
structure Finding (α : Type) where
  kind : FindingKind
  time : α
deriving Repr

/-- The times found of each kind. -/
structure Findings (α : Type) where
  times : FindingKind → List α

variable {α : Type} [Scalar α]

namespace Finding

/-- Order by kind, then by time. -/
def precedes (a b : Finding α) : Bool :=
  if a.kind.priority = b.kind.priority then less a.time b.time
  else decide (a.kind.priority < b.kind.priority)

/-- The same kind at the same time, up to tolerance. -/
def same (a b : Finding α) : Bool :=
  a.kind == b.kind && almostEqual a.time b.time

end Finding

/-- Findings by kind and time, each repeat up to tolerance dropped. -/
def sortFindings (findings : List (Finding α)) : List (Finding α) :=
  collapseBy Finding.same (sortBy Finding.precedes findings)

namespace Findings

omit [Scalar α] in
/-- Nothing found. -/
def none : Findings α := ⟨fun _ => []⟩

/-- Findings about one thing, then findings about another. -/
instance : Append (Findings α) where
  append a b := ⟨fun kind => a.times kind ++ b.times kind⟩

omit [Scalar α] in
@[simp] theorem times_append (a b : Findings α) (kind : FindingKind) :
    (a ++ b).times kind = a.times kind ++ b.times kind := rfl

/-- The findings of each kind in reporting order, one after the other. -/
def concatenated (findings : Findings α) : List (Finding α) :=
  FindingKind.all.flatMap fun kind => (findings.times kind).map (⟨kind, ·⟩)

/-- All findings, in order. -/
def list (findings : Findings α) : List (Finding α) :=
  sortFindings findings.concatenated

/-- How many times there are, over all kinds. -/
def count (findings : Findings α) : Nat :=
  FindingKind.all.foldl (fun n kind => n + (findings.times kind).length) 0

/-- Something was found. -/
def isPresent (findings : Findings α) : Bool :=
  0 < findings.count

end Findings

end CueCheck
