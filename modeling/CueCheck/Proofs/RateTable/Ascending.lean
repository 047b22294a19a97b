import CueCheck.RateTable.Changes
import CueCheck.Proofs.Binary64.Value
import CueCheck.Proofs.Tolerance
import Mathlib

/-!
# Ascending rate tables

A rate table converts without going back where its keys and its values ascend and its rates are
positive. Whether the table of a list of changes does so depends on the rate at its start only.

- **Schedules** (`isPositive_start_iff`, `isProper_ofChanges`): every rate but the one at the start
  comes from a valid change. The one at the start does too if a valid change stands there, else it
  is the default, which nothing checks.
- **Tables** (`isPositive_ofChanges_iff`, `isAscending_ofChanges_iff`): all rates are positive and
  finite exactly if that one is, and then keys and values ascend.
- **Conversion** (`strictMono_forward_ofChanges_iff`): a greater key converts to a greater value
  exactly if the table is ascending. `lastRow` finds the row in force without bisection.
-/

namespace CueCheck

/-! ## Positive scalars -/

namespace Scalar

/-- A finite number above zero. -/
def IsPositive {α : Type} [Scalar α] (x : α) : Prop :=
  ∃ q, exact x = .finite q ∧ 0 < q

/-- Finite scalars are compared by their values. -/
class OrderedByValue (α : Type) [Scalar α] : Prop where
  exact_zero : exact (zero : α) = .finite 0
  le_iff {x y : α} {p q : ℚ} (hx : exact x = .finite p) (hy : exact y = .finite q) :
    x ≤ y ↔ p ≤ q

instance : OrderedByValue ℚ where
  exact_zero := rfl
  le_iff := by
    rintro x y p q ⟨⟩ ⟨⟩
    rfl

instance : OrderedByValue Float where
  exact_zero := Binary64.exact_ofInt_zero
  le_iff := Binary64.le_iff_of_exact

theorem isPositive_rat {x : ℚ} : IsPositive x ↔ 0 < x := by
  simp [IsPositive]

end Scalar

open Scalar

variable {α : Type} [Scalar α]

/-- A valid change has a positive rate. -/
theorem RateChange.isPositive_rate [OrderedByValue α] {change : RateChange α}
    (h : change.isValid = true) : IsPositive change.rate := by
  simp only [isValid, Bool.not_eq_true', Bool.or_eq_false_iff, decide_eq_false_iff_not,
    Bool.not_eq_false'] at h
  obtain ⟨⟨-, above⟩, finite⟩ := h
  obtain ⟨q, hq⟩ := Binary64.exists_exact_eq finite
  rw [OrderedByValue.le_iff hq OrderedByValue.exact_zero, not_le] at above
  exact ⟨q, hq, above⟩

/-! ## Schedules -/

namespace RateSchedule

theorem mem_replace {change entry : RateChange α} {entries : List (RateChange α)}
    (h : entry ∈ put.replace change entries) : entry ∈ entries ∨ entry.rate = change.rate := by
  induction entries with
  | nil =>
    rw [put.replace, List.mem_singleton] at h
    exact .inr (by rw [h])
  | cons old rest ih =>
    rw [put.replace] at h
    split at h
    · rcases List.mem_cons.mp h with rfl | h
      · exact .inr rfl
      · exact .inl (List.mem_cons_of_mem _ h)
    · rcases List.mem_cons.mp h with rfl | h
      · exact .inl List.mem_cons_self
      · exact (ih h).imp_left (List.mem_cons_of_mem _)

/-- A change whose key is there already adds no key. -/
theorem map_key_replace (change : RateChange ℚ) (entries : List (RateChange ℚ)) :
    (put.replace change entries).map RateChange.key =
      if change.key ∈ entries.map RateChange.key then entries.map RateChange.key
      else entries.map RateChange.key ++ [change.key] := by
  induction entries with
  | nil => rfl
  | cons old rest ih =>
    rw [put.replace]
    by_cases h : old.key = change.key
    · rw [if_pos (beq_iff_eq.mpr h), List.map_cons, List.map_cons, h, if_pos List.mem_cons_self]
    · have mem : change.key ∈ (old :: rest).map RateChange.key ↔
          change.key ∈ rest.map RateChange.key := by
        rw [List.map_cons, List.mem_cons, or_iff_right (Ne.symm h)]
      rw [if_neg (fun hb => h (beq_iff_eq.mp hb)), List.map_cons, ih]
      simp only [mem]
      split <;> rfl

/-- What valid changes keep holds of the schedule of all changes if it holds of the default. -/
theorem ofChanges_induction {P : RateSchedule α → Prop} {changes : List (RateChange α)}
    {default : α} (start : P ⟨default, []⟩)
    (step : ∀ schedule change, P schedule → change.isValid = true → P (schedule.put change)) :
    P (ofChanges changes default) := by
  unfold ofChanges
  generalize (⟨default, []⟩ : RateSchedule α) = schedule at start ⊢
  induction changes generalizing schedule with
  | nil => exact start
  | cons change rest ih =>
    rw [List.filter_cons]
    split
    · rename_i valid
      exact ih _ (step schedule change start valid)
    · exact ih _ start

/-- Every rate that comes into force later is positive. -/
theorem isPositive_later [OrderedByValue α] {changes : List (RateChange α)} {default : α} :
    ∀ entry ∈ (ofChanges changes default).later, IsPositive entry.rate := by
  refine ofChanges_induction (P := fun schedule => ∀ entry ∈ schedule.later, IsPositive entry.rate)
    (fun _ mem => nomatch mem) ?_
  intro schedule change ih valid entry mem
  unfold put at mem
  split at mem
  · exact ih entry mem
  · rcases mem_replace mem with h | h
    · exact ih entry h
    · rw [h]
      exact RateChange.isPositive_rate valid

/-- The rate at the start is positive if the default is, or if a valid change stands there. -/
theorem isPositive_start_iff [OrderedByValue α] {changes : List (RateChange α)} {default : α} :
    IsPositive (ofChanges changes default).start ↔
      IsPositive default ∨
        ∃ change ∈ changes, change.isValid = true ∧ (change.key == zero) = true := by
  have folds (valid : List (RateChange α)) (hv : ∀ change ∈ valid, change.isValid = true)
      (schedule : RateSchedule α) :
      IsPositive (valid.foldl put schedule).start ↔
        IsPositive schedule.start ∨ ∃ change ∈ valid, (change.key == zero) = true := by
    induction valid generalizing schedule with
    | nil => simp
    | cons change rest ih =>
      rw [List.foldl_cons, ih (fun c hc => hv c (List.mem_cons_of_mem _ hc)), put]
      by_cases h : (change.key == zero) = true
      · have positive := RateChange.isPositive_rate (hv change List.mem_cons_self)
        simp [h, positive]
      · simp [h]
  unfold ofChanges
  rw [folds _ fun change h => (List.mem_filter.mp h).2]
  simp only [List.mem_filter, and_assoc]

/-- The later keys of a schedule lie after the start, and each of them once. -/
structure IsProper (schedule : RateSchedule ℚ) : Prop where
  after : ∀ entry ∈ schedule.later, 0 < entry.key
  distinct : (schedule.later.map RateChange.key).Nodup

theorem IsProper.put {schedule : RateSchedule ℚ} (h : schedule.IsProper) {change : RateChange ℚ}
    (valid : change.isValid = true) : (schedule.put change).IsProper := by
  unfold RateSchedule.put
  split
  · exact ⟨h.after, h.distinct⟩
  · rename_i apart
    have pos : 0 < change.key := by
      simp only [RateChange.isValid, Bool.not_eq_true', Bool.or_eq_false_iff] at valid
      have le := less_eq_false_iff.mp valid.1.1
      exact lt_of_le_of_ne le fun h => apart (beq_iff_eq.mpr h.symm)
    have keys := map_key_replace change schedule.later
    constructor
    · intro entry mem
      have mem := List.mem_map_of_mem (f := RateChange.key) mem
      rw [keys] at mem
      have old (h' : entry.key ∈ schedule.later.map RateChange.key) : 0 < entry.key := by
        obtain ⟨e, he, hk⟩ := List.mem_map.mp h'
        exact hk ▸ h.after e he
      split at mem
      · exact old mem
      · rcases List.mem_append.mp mem with mem | mem
        · exact old mem
        · rw [List.mem_singleton.mp mem]
          exact pos
    · simp only [keys]
      split
      · exact h.distinct
      · rename_i new
        exact h.distinct.append (List.nodup_singleton _) (List.disjoint_singleton.mpr new)

theorem isProper_ofChanges (changes : List (RateChange ℚ)) (default : ℚ) :
    (ofChanges changes default).IsProper :=
  ofChanges_induction ⟨(fun _ mem => nomatch mem), List.nodup_nil⟩ fun _ _ ih valid => ih.put valid

/-- In order, the keys of a schedule ascend from the start. -/
theorem IsProper.pairwise_key {schedule : RateSchedule ℚ} (h : schedule.IsProper) :
    (⟨0, schedule.start⟩ :: sortBy (fun a b => less a.key b.key) schedule.later).Pairwise
      fun a b : RateChange ℚ => a.key < b.key := by
  refine List.pairwise_cons.mpr ⟨fun entry mem => h.after entry (mem_sortBy.mp mem), ?_⟩
  have ascend := pairwise_sortBy (sortsByKey_less RateChange.key schedule.later)
  have apart := ((sortBy_perm (fun a b => less a.key b.key) schedule.later).map
    RateChange.key).nodup_iff.mpr h.distinct
  rw [List.Nodup, List.pairwise_map] at apart
  exact (ascend.and apart).imp fun h => lt_of_le_of_ne h.1 h.2

end RateSchedule

/-! ## Tables -/

/-- The key of a breakpoint, with its rate. -/
def Breakpoint.change (row : Breakpoint α) : RateChange α :=
  ⟨row.key, row.rate⟩

namespace RateTable

/-- The breakpoints of a list of changes stand at changes, with their rates. -/
theorem accumulate_sublist (row : Breakpoint α) (changes : List (RateChange α)) :
    ((accumulate row changes).map Breakpoint.change).Sublist changes := by
  induction changes generalizing row with
  | nil => exact .slnil
  | cons change rest ih =>
    rw [accumulate]
    split
    · exact (ih row).cons change
    · exact (ih _).cons_cons change

/-- The rates of a table are positive exactly if the one at its start is. -/
theorem isPositive_ofChanges_iff [OrderedByValue α] {changes : List (RateChange α)} {default : α} :
    (∀ row ∈ (ofChanges changes default).rows, IsPositive row.rate) ↔
      IsPositive default ∨
        ∃ change ∈ changes, change.isValid = true ∧ (change.key == zero) = true := by
  rw [← RateSchedule.isPositive_start_iff]
  constructor
  · intro h
    exact h _ List.mem_cons_self
  · intro h row mem
    rcases List.mem_cons.mp mem with rfl | mem
    · exact h
    · have mem := (accumulate_sublist _ _).subset (List.mem_map_of_mem mem)
      exact RateSchedule.isPositive_later _ (mem_sortBy.mp mem)

/-- A table that begins at the origin, with ascending keys and values and positive rates. -/
structure IsAscending (table : RateTable ℚ) : Prop where
  origin : table.first.key = 0 ∧ table.first.value = 0
  keys : table.rows.Pairwise fun row next => row.key < next.key
  values : table.rows.Pairwise fun row next => row.value < next.value
  rates : ∀ row ∈ table.rows, 0 < row.rate

/-- A row begins where the row before it has come to. -/
def Continues (row next : Breakpoint ℚ) : Prop :=
  next.value = row.value + (next.key - row.key) * row.rate

theorem Continues.value_lt {row next : Breakpoint ℚ} (h : Continues row next)
    (key : row.key < next.key) (rate : 0 < row.rate) : row.value < next.value := by
  rw [h]
  have := mul_pos (sub_pos.mpr key) rate
  linarith

/-- A row continues the one before it, with another rate. -/
theorem isChain_accumulate (row : Breakpoint ℚ) (changes : List (RateChange ℚ)) :
    (row :: accumulate row changes).IsChain fun row next =>
      Continues row next ∧ row.rate ≠ next.rate := by
  induction changes generalizing row with
  | nil => exact .singleton row
  | cons change rest ih =>
    rw [accumulate]
    split
    · exact ih row
    · rename_i h
      exact .cons_cons ⟨rfl, fun same => h (beq_iff_eq.mpr same.symm)⟩ (ih _)

/-- The rows of a table of changes continue each other. -/
theorem isChain_ofChanges (changes : List (RateChange ℚ)) (default : ℚ) :
    (ofChanges changes default).rows.IsChain Continues :=
  (isChain_accumulate _ _).imp fun _ _ => And.left

theorem keys_ofChanges (changes : List (RateChange ℚ)) (default : ℚ) :
    (ofChanges changes default).rows.Pairwise fun row next => row.key < next.key := by
  have sorted := (RateSchedule.isProper_ofChanges changes default).pairwise_key
  have stand : ((ofChanges changes default).rows.map Breakpoint.change).Sublist _ :=
    (accumulate_sublist _ _).cons_cons _
  exact (List.pairwise_map (f := Breakpoint.change)).mp (sorted.sublist stand)

/-- Values ascend with the keys where the rates are positive. -/
theorem values_of_isChain {rows : List (Breakpoint ℚ)} (chain : rows.IsChain Continues)
    (keys : rows.Pairwise fun row next => row.key < next.key)
    (rates : ∀ row ∈ rows, 0 < row.rate) :
    rows.Pairwise fun row next => row.value < next.value := by
  have steps : rows.IsChain fun row next => row.value < next.value := by
    rw [List.isChain_iff_getElem] at chain ⊢
    intro i hi
    exact (chain i hi).value_lt (List.pairwise_iff_getElem.mp keys i (i + 1) _ hi (by omega))
      (rates _ (List.getElem_mem _))
  have trans : IsTrans (Breakpoint ℚ) fun row next => row.value < next.value :=
    ⟨fun _ _ _ => lt_trans⟩
  exact List.isChain_iff_pairwise.mp steps

theorem isAscending_ofChanges_iff {changes : List (RateChange ℚ)} {default : ℚ} :
    (ofChanges changes default).IsAscending ↔
      IsPositive default ∨
        ∃ change ∈ changes, change.isValid = true ∧ (change.key == zero) = true := by
  rw [← isPositive_ofChanges_iff]
  simp only [isPositive_rat]
  constructor
  · exact IsAscending.rates
  · intro rates
    have keys := keys_ofChanges changes default
    exact ⟨⟨rfl, rfl⟩, keys, values_of_isChain (isChain_ofChanges changes default) keys rates,
      rates⟩

/-! ## Conversion -/

/-- The last row from `row` on whose key is not above `key`. -/
def lastRow (key : ℚ) (row : Breakpoint ℚ) : List (Breakpoint ℚ) → Breakpoint ℚ
  | [] => row
  | next :: later => if next.key ≤ key then lastRow key next later else row

theorem lastRow_of_lt {key : ℚ} {row : Breakpoint ℚ} {later : List (Breakpoint ℚ)}
    (h : ∀ next ∈ later, key < next.key) : lastRow key row later = row := by
  cases later with
  | nil => rfl
  | cons next later => exact if_neg (not_le.mpr (h next List.mem_cons_self))

/-- Where a row holds, it gives the value. -/
def extend (row : Breakpoint ℚ) (key : ℚ) : ℚ :=
  row.value + (key - row.key) * row.rate

theorem getElem?_eq_lastRow {key : ℚ} {row : Breakpoint ℚ} {later : List (Breakpoint ℚ)} {n : ℕ}
    (le : n ≤ later.length + 1)
    (below : ∀ i next, (row :: later)[i]? = some next → (i < n ↔ next.key ≤ key)) :
    (row :: later)[n - 1]? = some (lastRow key row later) := by
  induction later generalizing row n with
  | nil =>
    obtain rfl | rfl : n = 0 ∨ n = 1 := by simp at le; omega
    · rfl
    · rfl
  | cons next later ih =>
    have here := below 1 next rfl
    rw [lastRow]
    split
    · rename_i h
      obtain ⟨m, rfl⟩ : ∃ m, n = m + 2 := ⟨n - 2, by have := here.mpr h; omega⟩
      have rest : (next :: later)[m + 1 - 1]? = some (lastRow key next later) :=
        ih (by simpa using le) fun i r hr => by
          rw [← below (i + 1) r hr]
          omega
      simpa using rest
    · rename_i h
      have : n - 1 = 0 := by have := mt here.mp h; omega
      rw [this]
      rfl

/-- Bisection finds the row in force. -/
theorem rowByKey_eq_lastRow {table : RateTable ℚ}
    (h : table.rows.Pairwise fun row next => row.key < next.key) (key : ℚ) :
    table.rowByKey key = lastRow key table.first table.later := by
  have order : lessNanLast (α := ℚ) = less := by
    funext a b
    simp [lessNanLast]
  have keys : (table.rows.map Breakpoint.key).Pairwise (· ≤ ·) :=
    List.pairwise_map.mpr (h.imp le_of_lt)
  have le : countUpTo less (table.rows.map Breakpoint.key) key ≤ table.later.length + 1 := by
    refine (partitionPoint_le (Nat.zero_le _)).2.trans ?_
    rw [List.length_map, rows, List.length_cons]
  have found : table.rows[countUpTo less (table.rows.map Breakpoint.key) key - 1]? =
      some (lastRow key table.first table.later) :=
    getElem?_eq_lastRow le fun i next hi =>
      lt_countUpTo_iff keys (by rw [List.getElem?_map, rows, hi]; rfl)
  unfold rowByKey rowAt
  rw [order, List.getD_eq_getElem?_getD]
  exact congrArg (·.getD table.first) found

theorem forward_eq_extend {table : RateTable ℚ}
    (h : table.rows.Pairwise fun row next => row.key < next.key) (key : ℚ) :
    table.forward key = extend (lastRow key table.first table.later) key := by
  unfold forward
  simp only [rowByKey_eq_lastRow h]
  rfl

theorem value_le_extend_lastRow {key : ℚ} {row : Breakpoint ℚ} {later : List (Breakpoint ℚ)}
    (chain : (row :: later).IsChain Continues)
    (keys : (row :: later).Pairwise fun row next => row.key < next.key)
    (rates : ∀ r ∈ row :: later, 0 < r.rate) (h : row.key ≤ key) :
    row.value ≤ extend (lastRow key row later) key := by
  induction later generalizing row with
  | nil =>
    have := mul_nonneg (sub_nonneg.mpr h) (rates row List.mem_cons_self).le
    simp only [lastRow, extend]
    linarith
  | cons next later ih =>
    rw [List.isChain_cons_cons] at chain
    rw [List.pairwise_cons] at keys
    have rate := rates row List.mem_cons_self
    rw [lastRow]
    split
    · rename_i reached
      have lt := chain.1.value_lt (keys.1 next List.mem_cons_self) rate
      have le := ih chain.2 keys.2 (fun r hr => rates r (List.mem_cons_of_mem _ hr)) reached
      linarith
    · have := mul_nonneg (sub_nonneg.mpr h) rate.le
      simp only [extend]
      linarith

/-- From row to row, a greater key has a greater value. -/
theorem strictMono_extend_lastRow {row : Breakpoint ℚ} {later : List (Breakpoint ℚ)}
    (chain : (row :: later).IsChain Continues)
    (keys : (row :: later).Pairwise fun row next => row.key < next.key)
    (rates : ∀ r ∈ row :: later, 0 < r.rate) :
    StrictMono fun key => extend (lastRow key row later) key := by
  have within (x y : ℚ) (h : x < y) (r : Breakpoint ℚ) (rate : 0 < r.rate) :
      extend r x < extend r y := by
    have := mul_lt_mul_of_pos_right (sub_lt_sub_right h r.key) rate
    simp only [extend]
    linarith
  intro x y h
  induction later generalizing row with
  | nil => exact within x y h row (rates row List.mem_cons_self)
  | cons next later ih =>
    have rate := rates row List.mem_cons_self
    have rates' : ∀ r ∈ next :: later, 0 < r.rate := fun r hr =>
      rates r (List.mem_cons_of_mem _ hr)
    rw [List.isChain_cons_cons] at chain
    rw [List.pairwise_cons] at keys
    simp only [lastRow]
    by_cases hx : next.key ≤ x
    · rw [if_pos hx, if_pos (hx.trans h.le)]
      exact ih chain.2 keys.2 rates'
    · rw [if_neg hx]
      by_cases hy : next.key ≤ y
      · rw [if_pos hy]
        -- The row ends before `y`, at the value with which the next one begins.
        calc extend row x < extend row next.key := within x _ (not_le.mp hx) row rate
          _ = next.value := chain.1.symm
          _ ≤ extend (lastRow y next later) y :=
            value_le_extend_lastRow chain.2 keys.2 rates' hy
      · rw [if_neg hy]
        exact within x y h row rate

theorem strictMono_forward {table : RateTable ℚ} (h : table.IsAscending)
    (chain : table.rows.IsChain Continues) : StrictMono table.forward := by
  have eq : table.forward = fun key => extend (lastRow key table.first table.later) key :=
    funext (forward_eq_extend h.keys)
  rw [eq]
  exact strictMono_extend_lastRow chain h.keys h.rates

/-- Up to the start, the first row of a table is in force. -/
theorem lastRow_of_nonpos {changes : List (RateChange ℚ)} {default key : ℚ} (h : key ≤ 0) :
    lastRow key (ofChanges changes default).first (ofChanges changes default).later =
      (ofChanges changes default).first :=
  lastRow_of_lt fun next mem =>
    h.trans_lt ((List.pairwise_cons.mp (keys_ofChanges changes default)).1 next mem)

/-- A table of changes converts without going back exactly if it is ascending: before the start, the
rate at the start holds. -/
theorem strictMono_forward_ofChanges_iff {changes : List (RateChange ℚ)} {default : ℚ} :
    StrictMono (ofChanges changes default).forward ↔ (ofChanges changes default).IsAscending := by
  constructor
  · intro mono
    have before (key : ℚ) (h : key < 0) :
        (ofChanges changes default).forward key = key * (ofChanges changes default).first.rate := by
      rw [forward_eq_extend (keys_ofChanges changes default), lastRow_of_nonpos h.le]
      show (0 : ℚ) + (key - 0) * _ = _
      ring
    have step := mono (show (-2 : ℚ) < -1 by norm_num)
    rw [before _ (by norm_num), before _ (by norm_num)] at step
    rw [isAscending_ofChanges_iff, ← RateSchedule.isPositive_start_iff, isPositive_rat]
    show 0 < (ofChanges changes default).first.rate
    linarith
  · exact fun h => strictMono_forward h (isChain_ofChanges changes default)

end RateTable

end CueCheck
