import CueCheck.Proofs.Binary64.Whole
import CueCheck.Proofs.RateTable.Split
import Mathlib

/-!
# Tables of whole numbers

A table of whole numbers that are not too great is accumulated without rounding. So the table of
binary64 numbers represents the table of rationals, row by row, and lookups find the same rows.

- **Representation** (`Represents`): the binary64 numbers of a change, of a schedule or of a table
  have the values of the rationals. Putting a change in force keeps it (`Represents.put`).
- **Whole rows** (`IsWhole`): keys up to `K`, rates up to `M`, and values up to `M` for each unit of
  key. Up to `2 ^ 52` in all, the step to the next row is exact (`represents_next`), so the table of
  changes represents the table of rationals (`RateTable.represents_ofChanges`).
- **Lookup** (`Represents.rowByKey`, `Represents.rowByValue`): the rows found represent each other.
- **Splitting** (`Represents.exists_split`): every finite place from the start on splits, and the
  rest is less than the rate in force at the key.
-/

namespace CueCheck

open Scalar Binary64

/-! ## Representation -/

theorem beq_eq_of_exact {x y : Float} {p q : ℚ} (hx : Scalar.exact x = .finite p)
    (hy : Scalar.exact y = .finite q) : (x == y) = (p == q) :=
  (beq_of_exact hx hy).trans (beq_eq_decide p q).symm

theorem lessNanLast_eq_of_exact {x y : Float} {p q : ℚ} (hx : Scalar.exact x = .finite p)
    (hy : Scalar.exact y = .finite q) : lessNanLast x y = lessNanLast p q := by
  have order : less x y = less p q := less_of_exact hx hy
  unfold lessNanLast
  rw [order, beq_eq_of_exact hx hx, beq_eq_of_exact hy hy]

theorem finiteValue_of_exact {x : Float} {q : ℚ} (hx : Scalar.exact x = .finite q) :
    finiteValue x = .ok q := by
  unfold finiteValue
  rw [hx]

theorem truncate_of_exact {x : Float} {n : ℕ} (hx : Scalar.exact x = .finite n) :
    truncate x = .ok (n : ℤ) := by
  unfold truncate
  rw [finiteValue_of_exact hx]
  exact congrArg Except.ok (cutToInt_intCast n)

/-- The numbers of the change have the values of the other one. -/
structure RateChange.Represents (change : RateChange Float) (of : RateChange ℚ) : Prop where
  key : Scalar.exact change.key = .finite of.key
  rate : Scalar.exact change.rate = .finite of.rate

/-- The numbers of the row have the values of the other one. -/
structure Breakpoint.Represents (row : Breakpoint Float) (of : Breakpoint ℚ) : Prop where
  key : Scalar.exact row.key = .finite of.key
  value : Scalar.exact row.value = .finite of.value
  rate : Scalar.exact row.rate = .finite of.rate

theorem RateChange.Represents.isValid_eq {change : RateChange Float} {of : RateChange ℚ}
    (h : change.Represents of) : change.isValid = of.isValid := by
  have key : less change.key zero = less of.key zero := less_of_exact h.key exact_ofInt_zero
  have rate : decide (change.rate ≤ zero) = decide (of.rate ≤ zero) :=
    decide_eq_decide.mpr (le_iff_of_exact h.rate exact_ofInt_zero)
  unfold isValid
  rw [key, rate, isFinite_of_exact h.rate, isFinite_rat]

/-! ## Schedules -/

namespace RateSchedule

/-- The rates of the schedule represent those of the other one, entry by entry. -/
structure Represents (schedule : RateSchedule Float) (of : RateSchedule ℚ) : Prop where
  start : Scalar.exact schedule.start = .finite of.start
  later : List.Forall₂ RateChange.Represents schedule.later of.later

theorem forall₂_replace {change : RateChange Float} {of : RateChange ℚ}
    {entries : List (RateChange Float)} {ofs : List (RateChange ℚ)} (h : change.Represents of)
    (hs : List.Forall₂ RateChange.Represents entries ofs) :
    List.Forall₂ RateChange.Represents (put.replace change entries) (put.replace of ofs) := by
  induction hs with
  | nil => exact .cons h .nil
  | cons old rest ih =>
    rw [put.replace, put.replace, beq_eq_of_exact old.key h.key]
    split
    · exact .cons ⟨old.key, h.rate⟩ rest
    · exact .cons old ih

theorem Represents.put {schedule : RateSchedule Float} {ofs : RateSchedule ℚ}
    {change : RateChange Float} {of : RateChange ℚ} (hs : schedule.Represents ofs)
    (h : change.Represents of) : (schedule.put change).Represents (ofs.put of) := by
  have start : (change.key == zero) = (of.key == zero) := beq_eq_of_exact h.key exact_ofInt_zero
  unfold RateSchedule.put
  rw [start]
  split
  · exact ⟨h.rate, hs.later⟩
  · exact ⟨hs.start, forall₂_replace h hs.later⟩

/-- The schedule of changes represents that of the valid ones. -/
theorem represents_ofChanges {changes : List (RateChange Float)} {ofs : List (RateChange ℚ)}
    {default : Float} {d : ℚ}
    (h : List.Forall₂ RateChange.Represents (changes.filter RateChange.isValid) ofs)
    (hd : Scalar.exact default = .finite d) :
    (ofChanges changes default).Represents (ofChanges ofs d) := by
  have valid : ofs.filter RateChange.isValid = ofs := by
    obtain ⟨pairs, left, rfl, represents⟩ := exists_zip_of_forall₂ h
    refine List.filter_eq_self.mpr (List.forall_mem_map.mpr fun pair mem => ?_)
    have listed : pair.1 ∈ changes.filter RateChange.isValid := left ▸ List.mem_map_of_mem mem
    rw [← (represents pair mem).isValid_eq]
    exact (List.mem_filter.mp listed).2
  have folds {changes : List (RateChange Float)} {ofs : List (RateChange ℚ)}
      {schedule : RateSchedule Float} {of : RateSchedule ℚ}
      (h : List.Forall₂ RateChange.Represents changes ofs) (hs : schedule.Represents of) :
      (changes.foldl RateSchedule.put schedule).Represents (ofs.foldl RateSchedule.put of) := by
    induction h generalizing schedule of with
    | nil => exact hs
    | cons first _ ih => exact ih (hs.put first)
  unfold ofChanges
  rw [valid]
  exact folds h ⟨hd, .nil⟩

end RateSchedule

/-! ## Whole rows -/

/-- A change at a key up to `K` to a rate up to `M`, both of them whole. -/
def RateChange.IsWhole {α : Type} [Scalar α] (K M : ℕ) (change : RateChange α) : Prop :=
  ∃ k n : ℕ, k ≤ K ∧ n ≤ M ∧ Scalar.exact change.key = .finite k ∧
    Scalar.exact change.rate = .finite n

theorem RateChange.exists_represents {K M : ℕ} {changes : List (RateChange Float)}
    (whole : ∀ change ∈ changes, change.IsWhole K M) :
    ∃ ofs : List (RateChange ℚ), List.Forall₂ RateChange.Represents changes ofs ∧
      ∀ of ∈ ofs, of.IsWhole K M := by
  induction changes with
  | nil => exact ⟨[], .nil, nofun⟩
  | cons change changes ih =>
    obtain ⟨⟨k, n, hk, hn, key, rate⟩, whole⟩ := List.forall_mem_cons.mp whole
    obtain ⟨ofs, represents, wholes⟩ := ih whole
    exact ⟨⟨k, n⟩ :: ofs, .cons ⟨key, rate⟩ represents,
      List.forall_mem_cons.mpr ⟨⟨k, n, hk, hn, rfl, rfl⟩, wholes⟩⟩

/-- A row at a change of whole numbers, the value of which is whole and no more than `M` for each
unit of key. -/
def Breakpoint.IsWhole (K M : ℕ) (row : Breakpoint ℚ) : Prop :=
  ∃ k v n : ℕ, k ≤ K ∧ v ≤ k * M ∧ n ≤ M ∧ row = ⟨k, v, n⟩

namespace RateTable

variable {K M : ℕ}

section Step

variable {row : Breakpoint Float} {r : Breakpoint ℚ} {change : RateChange Float} {c : RateChange ℚ}

/-- Where the values stay whole numbers below `2 ^ 53`, the step to the next row is exact. -/
theorem represents_next (few : K * M ≤ 2 ^ 52) (pos : 0 < M) (hr : row.Represents r)
    (hrow : r.IsWhole K M) (hc : change.Represents c) (hchange : c.IsWhole K M)
    (lt : r.key < c.key) :
    Breakpoint.Represents
        ⟨change.key, row.value + (change.key - row.key) * row.rate, change.rate⟩
        ⟨c.key, r.value + (c.key - r.key) * r.rate, c.rate⟩ ∧
      Breakpoint.IsWhole K M ⟨c.key, r.value + (c.key - r.key) * r.rate, c.rate⟩ := by
  obtain ⟨k, v, n, -, hv, hn, rfl⟩ := hrow
  obtain ⟨k', n', hk', hn', key, rate⟩ := hchange
  obtain ⟨_, _⟩ := c
  obtain rfl := Extended.finite.inj key
  obtain rfl := Extended.finite.inj rate
  have lt : k < k' := Nat.cast_lt.mp lt
  have grown : v + (k' - k) * n ≤ k' * M := by
    calc v + (k' - k) * n ≤ k * M + (k' - k) * M := by gcongr
      _ = k' * M := by rw [← Nat.add_mul, Nat.add_sub_cancel' lt.le]
  have bound : k' * M ≤ 2 ^ 52 := (Nat.mul_le_mul_right M hk').trans few
  have key : k' ≤ k' * M := Nat.le_mul_of_pos_right k' pos
  have value : ((v : ℚ) + ((k' : ℚ) - k) * n) = (v + (k' - k) * n : ℕ) := by
    push_cast [Nat.cast_sub lt.le]
    rfl
  simp only [value]
  refine ⟨⟨hc.key, ?_, hc.rate⟩, ⟨k', _, n', hk', grown, hn', rfl⟩⟩
  have span := exact_sub_natCast hc.key hr.key lt.le (by omega)
  have grow := exact_mul_natCast span hr.rate (by omega)
  exact exact_add_natCast hr.value grow (by omega)

end Step

theorem represents_accumulate (few : K * M ≤ 2 ^ 52) (pos : 0 < M) {row : Breakpoint Float}
    {r : Breakpoint ℚ} {changes : List (RateChange Float)} {ofs : List (RateChange ℚ)}
    (hr : row.Represents r) (hrow : r.IsWhole K M)
    (h : List.Forall₂ RateChange.Represents changes ofs) (whole : ∀ of ∈ ofs, of.IsWhole K M)
    (keys : (r.change :: ofs).Pairwise fun a b => a.key < b.key) :
    List.Forall₂ Breakpoint.Represents (accumulate row changes) (accumulate r ofs) ∧
      ∀ next ∈ accumulate r ofs, next.IsWhole K M := by
  induction h generalizing row r with
  | nil => exact ⟨.nil, nofun⟩
  | @cons change of changes ofs hc rest ih =>
    obtain ⟨hchange, whole⟩ := List.forall_mem_cons.mp whole
    obtain ⟨first, later⟩ := List.pairwise_cons.mp keys
    obtain ⟨here, after⟩ := List.forall_mem_cons.mp first
    obtain ⟨hnext, wholeNext⟩ := represents_next few pos hr hrow hc hchange here
    rw [accumulate, accumulate, beq_eq_of_exact hc.rate hr.rate]
    split
    · exact ih hr hrow whole (List.pairwise_cons.mpr ⟨after, (List.pairwise_cons.mp later).2⟩)
    · obtain ⟨rows, wholeRows⟩ := ih hnext wholeNext whole later
      exact ⟨.cons hnext rows, List.forall_mem_cons.mpr ⟨wholeNext, wholeRows⟩⟩

/-! ## Tables -/

/-- The rows of the table represent those of the other one. -/
structure Represents (table : RateTable Float) (of : RateTable ℚ) : Prop where
  first : table.first.Represents of.first
  later : List.Forall₂ Breakpoint.Represents table.later of.later

/-- The table of changes to whole rates at whole keys represents that of the valid ones. -/
theorem represents_ofChanges (few : K * M ≤ 2 ^ 52) (pos : 0 < M)
    {changes : List (RateChange Float)} {ofs : List (RateChange ℚ)} {default : Float} {d : ℕ}
    (h : List.Forall₂ RateChange.Represents (changes.filter RateChange.isValid) ofs)
    (whole : ∀ of ∈ ofs, of.IsWhole K M) (hd : Scalar.exact default = .finite d) (hM : d ≤ M) :
    (ofChanges changes default).Represents (ofChanges ofs d) ∧
      ∀ row ∈ (ofChanges ofs d).rows, row.IsWhole K M := by
  have schedule := RateSchedule.represents_ofChanges h hd
  have entries : ∀ entry ∈ (RateSchedule.ofChanges ofs d).entries, entry.IsWhole K M := by
    intro entry mem
    rcases List.mem_cons.mp (RateSchedule.mem_entries_ofChanges_iff.mp mem).mem with rfl | listed
    · exact ⟨0, d, Nat.zero_le K, hM, rfl, rfl⟩
    · exact whole entry (List.mem_filter.mp listed).1
  obtain ⟨first, later⟩ := List.forall_mem_cons.mp entries
  obtain ⟨_, n, -, hn, -, hstart⟩ := first
  have start : (RateSchedule.ofChanges ofs d).start = n := Extended.finite.inj hstart
  have hfirst : Breakpoint.Represents ⟨zero, zero, (RateSchedule.ofChanges changes default).start⟩
      ⟨zero, zero, (RateSchedule.ofChanges ofs d).start⟩ :=
    ⟨exact_ofInt_zero, exact_ofInt_zero, schedule.start⟩
  have wholeFirst :
      Breakpoint.IsWhole K M ⟨zero, zero, (RateSchedule.ofChanges ofs d).start⟩ := by
    refine ⟨0, 0, n, Nat.zero_le K, Nat.zero_le _, hn, ?_⟩
    rw [start, Nat.cast_zero]
    rfl
  have sorted : List.Forall₂ RateChange.Represents
      (sortBy (fun a b => less a.key b.key) (RateSchedule.ofChanges changes default).later)
      (sortBy (fun a b => less a.key b.key) (RateSchedule.ofChanges ofs d).later) :=
    forall₂_sortBy_of_congr (fun _ _ _ _ ha hb => less_of_exact ha.key hb.key) schedule.later
  obtain ⟨rows, wholeRows⟩ := represents_accumulate few pos hfirst wholeFirst sorted
    (fun of mem => later of (mem_sortBy.mp mem))
    (RateSchedule.isProper_ofChanges ofs d).pairwise_key
  exact ⟨⟨hfirst, rows⟩, List.forall_mem_cons.mpr ⟨wholeFirst, wholeRows⟩⟩

/-! ## Lookup -/

section Lookup

variable {table : RateTable Float} {of : RateTable ℚ} {x : Float} {q : ℚ}

/-- Bisection goes the same way through lists that compare alike. -/
theorem countUpTo_map_congr {β γ δ : Type} {lt : β → β → Bool} {other : γ → γ → Bool}
    {f : δ → β} {g : δ → γ} {x : β} {y : γ} {entries : List δ}
    (congr : ∀ entry ∈ entries, lt x (f entry) = other y (g entry)) :
    countUpTo lt (entries.map f) x = countUpTo other (entries.map g) y := by
  unfold countUpTo
  rw [List.length_map, List.length_map]
  congr 1
  funext i
  rw [List.getElem?_map, List.getElem?_map]
  cases found : entries[i]? with
  | none => rfl
  | some entry => exact congrArg (!·) (congr entry (List.mem_of_getElem? found))

theorem Represents.rowAt {coordinate : Breakpoint Float → Float} {coordinate' : Breakpoint ℚ → ℚ}
    (reads : ∀ row r, row.Represents r → Scalar.exact (coordinate row) = .finite (coordinate' r))
    (h : table.Represents of) (hx : Scalar.exact x = .finite q) :
    (table.rowAt coordinate x).Represents (of.rowAt coordinate' q) := by
  have rows : List.Forall₂ Breakpoint.Represents table.rows of.rows := .cons h.first h.later
  obtain ⟨pairs, left, right, represents⟩ := exists_zip_of_forall₂ rows
  have count : countUpTo lessNanLast (table.rows.map coordinate) x =
      countUpTo lessNanLast (of.rows.map coordinate') q := by
    rw [← left, ← right, List.map_map, List.map_map]
    exact countUpTo_map_congr fun pair mem =>
      lessNanLast_eq_of_exact hx (reads _ _ (represents pair mem))
  unfold RateTable.rowAt
  rw [count]
  generalize countUpTo lessNanLast (of.rows.map coordinate') q - 1 = n
  rw [List.getD_eq_getElem?_getD, List.getD_eq_getElem?_getD, ← left, ← right, List.getElem?_map,
    List.getElem?_map]
  cases found : pairs[n]? with
  | none => exact h.first
  | some pair => exact represents pair (List.mem_of_getElem? found)

theorem Represents.rowByKey (h : table.Represents of) (hx : Scalar.exact x = .finite q) :
    (table.rowByKey x).Represents (of.rowByKey q) :=
  h.rowAt (fun _ _ represents => represents.key) hx

theorem Represents.rowByValue (h : table.Represents of) (hx : Scalar.exact x = .finite q) :
    (table.rowByValue x).Represents (of.rowByValue q) :=
  h.rowAt (fun _ _ represents => represents.value) hx

end Lookup

/-! ## Splitting -/

section Reached

variable {table : RateTable ℚ}

theorem key_lastRow_le {key : ℚ} {row : Breakpoint ℚ} {later : List (Breakpoint ℚ)}
    (h : row.key ≤ key) : (lastRow key row later).key ≤ key := by
  induction later generalizing row with
  | nil => exact h
  | cons next later ih =>
    rw [lastRow]
    split
    · rename_i reached
      exact ih reached
    · exact h

theorem lastRow_of_le {key : ℚ} {row : Breakpoint ℚ} {later : List (Breakpoint ℚ)}
    (h : ∀ next ∈ later, next.key ≤ key) :
    lastRow key row later = (row :: later).getLast (List.cons_ne_nil _ _) := by
  induction later generalizing row with
  | nil => rfl
  | cons next later ih =>
    obtain ⟨here, h⟩ := List.forall_mem_cons.mp h
    rw [lastRow, if_pos here, ih h]
    exact (List.getLast_cons _).symm

theorem value_rowByValue_le (h : table.IsContinuous) {value : ℚ} (start : 0 ≤ value) :
    (table.rowByValue value).value ≤ value := by
  have le : (lastRow value table.mirror.first table.mirror.later).key ≤ value :=
    key_lastRow_le (h.mirror.origin.1.trans_le start)
  rwa [← rowByKey_eq_lastRow h.mirror.keys, rowByKey_mirror] at le

theorem rowByValue_eq (h : table.IsContinuous) (value : ℚ) :
    table.rowByValue value = table.rowByKey (table.inverse value) := by
  rw [← rowByValue_forward h, forward_inverse h]

/-- Where a value is past the start of every row, the row in force stays in force. -/
theorem rowByKey_of_reached (h : table.IsContinuous) {key value : ℚ}
    (reached : ∀ row ∈ table.rows, row.value ≤ value)
    (le : (table.rowByValue value).key ≤ key) : table.rowByKey key = table.rowByValue value := by
  obtain ⟨last, hlast⟩ : ∃ last, last = table.rows.getLast (by simp [rows]) := ⟨_, rfl⟩
  have byValue : table.rowByValue value = last := by
    have mirrored : (table.rowByValue value).mirror = last.mirror := by
      rw [← rowByKey_mirror, rowByKey_eq_lastRow h.mirror.keys, lastRow_of_le, hlast]
      · show (table.rows.map Breakpoint.mirror).getLast _ = _
        exact List.getLast_map _
      · exact List.forall_mem_map.mpr fun row mem => reached row (List.mem_cons_of_mem _ mem)
    simpa using congrArg Breakpoint.mirror mirrored
  have ends (row : Breakpoint ℚ) (mem : row ∈ table.rows) : row.key ≤ last.key := by
    rw [hlast]
    exact (h.keys.imp le_of_lt).rel_getLast_of_rel_getLast_getLast mem le_rfl
  rw [byValue] at le ⊢
  rw [rowByKey_eq_lastRow h.keys, hlast]
  exact lastRow_of_le fun row mem => (ends row (List.mem_cons_of_mem _ mem)).trans le

end Reached

section Split

variable {table : RateTable Float} {of : RateTable ℚ} {v : Float} {p : ℚ}

/-- The row in force at a value stays in force at the whole key before it. From `2 ^ 52` on that is
the last row. -/
theorem rowByKey_of_split {of : RateTable ℚ} (continuous : of.IsContinuous)
    (few : K * M ≤ 2 ^ 52) (whole : ∀ row ∈ of.rows, row.IsWhole K M) {key : ℕ}
    (floor : p < 2 ^ 52 → key = ⌊of.inverse p⌋) (le : (of.rowByValue p).key ≤ key) :
    of.rowByKey key = of.rowByValue p := by
  rcases lt_or_ge p (2 ^ 52) with lt | ge
  · have wholeKeys : of.HasWholeKeys := by
      intro row mem
      obtain ⟨k, _, _, -, -, -, rfl⟩ := whole row mem
      exact ⟨k, rfl⟩
    rw [rowByValue_eq continuous,
      ← rowByKey_floor continuous.toIsAscending wholeKeys (of.inverse p), ← floor lt,
      Int.cast_natCast]
  · refine rowByKey_of_reached continuous (fun row mem => ?_) le
    obtain ⟨k, value, _, hk, hvalue, -, rfl⟩ := whole row mem
    have bound : value ≤ 2 ^ 52 := (hvalue.trans (Nat.mul_le_mul_right M hk)).trans few
    have bound : (value : ℚ) ≤ 2 ^ 52 := by exact_mod_cast bound
    exact bound.trans ge

/-- A place from the start of a row on splits into a whole key, counted from that of the row, and a
rest. Below `2 ^ 52` nothing is lost. -/
theorem exists_split_row {row : Breakpoint Float} {k value n : ℕ} (few : k ≤ 2 ^ 52)
    (pos : 0 < n) (hrow : row.Represents ⟨k, value, n⟩) (hv : Scalar.exact v = .finite p)
    (le : value ≤ p) :
    ∃ (key : ℕ) (w rest : Float) (r : ℚ), divMod? (v - row.value) row.rate = some (w, rest) ∧
      truncate (row.key + w) = .ok (key : ℤ) ∧ Scalar.exact (ofInt key : Float) = .finite key ∧
      k ≤ key ∧ Scalar.exact rest = .finite r ∧ 0 ≤ r ∧ r < n ∧
      (p < 2 ^ 52 → key ≤ 2 ^ 53 ∧ p = value + (key - k : ℕ) * n + r) := by
  have rate : (0 : ℚ) < n := Nat.cast_pos.mpr pos
  obtain ⟨q, hq, hq0, beyond⟩ := exists_exact_sub_natCast hv hrow.value le
  obtain ⟨w, rest, m, hdivMod, hrest, hw, wholes⟩ := exists_divMod? hq hrow.rate hq0 pos
  obtain ⟨key, hsum, hle, sum⟩ := exists_exact_add_natCast hrow.key hw (by omega)
  have below := Int.floor_le (q / n)
  have above := Int.lt_floor_add_one (q / n)
  rw [le_div_iff₀ rate] at below
  rw [div_lt_iff₀ rate] at above
  refine ⟨key, w, rest, _, hdivMod, truncate_of_exact hsum,
    exact_ofInt (fits_of_exact hsum) (lt_of_abs_lt (abs_lt_limit hsum)), hle, hrest,
    sub_nonneg.mpr below, by linarith, fun lt => ?_⟩
  have hq : q = p - value := beyond (lt.trans (by norm_num))
  have hq' : q < 2 ^ 52 := hq ▸ (sub_le_self p (Nat.cast_nonneg value)).trans_lt lt
  rw [← wholes (hq'.trans (by norm_num)), Int.cast_natCast] at below ⊢
  have few : (m : ℚ) ≤ 2 ^ 52 := by
    calc (m : ℚ) ≤ m * n := le_mul_of_one_le_right (Nat.cast_nonneg m) (by exact_mod_cast pos)
      _ ≤ 2 ^ 52 := below.trans hq'.le
  have few : m ≤ 2 ^ 52 := by exact_mod_cast few
  obtain rfl : key = k + m := sum (by omega)
  rw [Nat.add_sub_cancel_left, hq]
  exact ⟨by omega, by ring⟩

/-- A finite place from the start on splits into a whole key and a rest, which is less than the rate
in force there. Below `2 ^ 52` the rest is what the place has beyond the key. -/
theorem Represents.exists_split (few : K * M ≤ 2 ^ 52) (pos : 0 < M) (h : table.Represents of)
    (continuous : of.IsContinuous) (whole : ∀ row ∈ of.rows, row.IsWhole K M)
    (hv : Scalar.exact v = .finite p) (start : 0 ≤ p) :
    ∃ (key rate : ℕ) (rest : Float) (r : ℚ), table.split v = .ok (key, rest) ∧
      Scalar.exact (table.rateAt (ofInt key)) = .finite rate ∧ rate ≤ M ∧
      Scalar.exact rest = .finite r ∧ 0 ≤ r ∧ r < rate ∧
      (p < 2 ^ 52 → Scalar.exact (table.forward (ofInt key)) = .finite (p - r)) := by
  have mem : of.rowByValue p ∈ of.rows := by
    rw [rowByValue_eq continuous]
    exact rowByKey_mem continuous.toIsAscending _
  have row := h.rowByValue hv
  have le := value_rowByValue_le continuous start
  have rate := continuous.rates _ mem
  obtain ⟨k, value, n, hk, hvalue, hn, hrow⟩ := whole _ mem
  rw [hrow] at row le rate
  have bound : k * M ≤ 2 ^ 52 := (Nat.mul_le_mul_right M hk).trans few
  have bound' : k ≤ k * M := Nat.le_mul_of_pos_right k pos
  obtain ⟨key, w, rest, r, hdivMod, truncated, hkey, hle, hrest, nonneg, lt, whence⟩ :=
    exists_split_row (by omega) (Nat.cast_pos.mp rate) row hv le
  have rate : (0 : ℚ) < n := rate
  have split : table.split v = .ok (key, rest) := by
    unfold RateTable.split
    simp only [hdivMod, truncated]
  have stays : of.rowByKey key = ⟨k, value, n⟩ := by
    rw [← hrow]
    refine rowByKey_of_split continuous few whole (fun lt => ?_) ?_
    · obtain ⟨-, sum⟩ := whence lt
      have back : of.inverse p = (key : ℤ) + r / n := by
        unfold RateTable.inverse
        simp only [hrow]
        rw [sum, Nat.cast_sub hle, Int.cast_natCast]
        field_simp
        ring
      rw [back, Int.floor_intCast_add, Int.floor_eq_zero_iff.mpr, add_zero]
      exact ⟨div_nonneg nonneg rate.le, (div_lt_one rate).mpr ‹_›⟩
    · rw [hrow]
      exact Nat.cast_le.mpr hle
  have there := h.rowByKey hkey
  rw [stays] at there
  refine ⟨key, n, rest, r, split, there.rate, hn, hrest, nonneg, lt, fun early => ?_⟩
  obtain ⟨room, sum⟩ := whence early
  have total : value + (key - k) * n ≤ 2 ^ 52 := by
    have total : ((value + (key - k) * n : ℕ) : ℚ) ≤ 2 ^ 52 := by
      push_cast
      linarith
    exact_mod_cast total
  have span := exact_sub_natCast hkey there.key hle room
  have grow := exact_mul_natCast span there.rate (by omega)
  have grown := exact_add_natCast there.value grow (by omega)
  have line : p - r = (value + (key - k) * n : ℕ) := by
    push_cast
    linarith
  rw [line]
  exact grown

end Split

end RateTable

end CueCheck
