/-!
# Bisection

A search by halving for the place in a row where a test turns from true to false.

* `partitionPoint_le`: the place lies within the bounds that the search began with.
* `partitionPoint_spec`: where the test does turn only once, all places before the found one pass
  it and none from there on does.
-/

namespace CueCheck

/-- The first place from `low` up to `high` at which `before` fails, found by halving: a test in the
middle that passes moves the search to the places after it. -/
def partitionPoint (before : Nat → Bool) (low high : Nat) : Nat :=
  if low < high then
    let middle := (low + high) / 2
    if before middle then partitionPoint before (middle + 1) high
    else partitionPoint before low middle
  else low
termination_by high - low

theorem partitionPoint_le {before : Nat → Bool} {low high : Nat} (h : low ≤ high) :
    low ≤ partitionPoint before low high ∧ partitionPoint before low high ≤ high := by
  fun_induction partitionPoint before low high with
  | case1 low high hlt middle hb ih => have := ih (by omega); omega
  | case2 low high hlt middle hb ih => have := ih (by omega); omega
  | case3 low high hlt => omega

theorem partitionPoint_spec {before : Nat → Bool} {low high : Nat} (h : low ≤ high)
    (turns : ∀ i j, low ≤ i → i ≤ j → j < high → before j = true → before i = true) :
    (∀ i, low ≤ i → i < partitionPoint before low high → before i = true) ∧
      ∀ i, partitionPoint before low high ≤ i → i < high → before i = false := by
  fun_induction partitionPoint before low high with
  | case1 low high hlt middle hb ih =>
    obtain ⟨h1, h2⟩ := ih (by omega) (fun i j hi hij hj => turns i j (by omega) hij hj)
    refine ⟨fun i hi hlt' => ?_, h2⟩
    rcases Nat.lt_or_ge i (middle + 1) with hm | hm
    · exact turns i middle hi (by omega) (by omega) hb
    · exact h1 i hm hlt'
  | case2 low high hlt middle hb ih =>
    obtain ⟨h1, h2⟩ := ih (by omega) (fun i j hi hij hj => turns i j hi hij (by omega))
    refine ⟨h1, fun i hi hlt' => ?_⟩
    rcases Nat.lt_or_ge i middle with hm | hm
    · exact h2 i hi hm
    · cases hbi : before i with
      | false => rfl
      | true => exact absurd (turns middle i (by omega) hm hlt' hbi) hb
  | case3 low high hlt => exact ⟨fun i hi hi' => by omega, fun i hi hi' => by omega⟩

/-- How many entries of a sorted list come before the first one that is not less than `x`. -/
def countBelow {α : Type} (lt : α → α → Bool) (xs : List α) (x : α) : Nat :=
  partitionPoint (fun i => match xs[i]? with | some y => lt y x | none => false) 0 xs.length

/-- How many entries of a sorted list come before the first one that is greater than `x`. -/
def countUpTo {α : Type} (lt : α → α → Bool) (xs : List α) (x : α) : Nat :=
  partitionPoint (fun i => match xs[i]? with | some y => !lt x y | none => false) 0 xs.length

end CueCheck
