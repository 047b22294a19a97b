import CueCheck.Proofs.RateTable.Ascending
import CueCheck.Proofs.Sorting.Stable
import Mathlib

/-!
# Converting back

The way back through a rate table is the way there through another one: keys and values change
places, and rates are turned over. So what holds of `forward` holds of `inverse`.

- **The mirror** (`mirror`, `inverse_eq_forward_mirror`): the table for the way back, which is
  continuous as well (`IsContinuous.mirror`).
- **Lookup** (`rowByValue_forward`): a key and its value have the same row.
- **The result** (`inverse_forward`, `forward_inverse`): the two ways cancel in any continuous
  table, and so in the table of a list of changes (`ofChanges_inverse`).
-/

namespace CueCheck

/-! ## The mirror -/

namespace Breakpoint

/-- The breakpoint for the way back. -/
def mirror (row : Breakpoint ℚ) : Breakpoint ℚ :=
  ⟨row.value, row.key, row.rate⁻¹⟩

@[simp] theorem key_mirror (row : Breakpoint ℚ) : row.mirror.key = row.value := rfl

@[simp] theorem value_mirror (row : Breakpoint ℚ) : row.mirror.value = row.key := rfl

@[simp] theorem rate_mirror (row : Breakpoint ℚ) : row.mirror.rate = row.rate⁻¹ := rfl

@[simp] theorem mirror_mirror (row : Breakpoint ℚ) : row.mirror.mirror = row := by
  simp [mirror]

end Breakpoint

namespace RateTable

/-- The table for the way back. -/
def mirror (table : RateTable ℚ) : RateTable ℚ :=
  ⟨table.first.mirror, table.later.map Breakpoint.mirror⟩

theorem rows_mirror (table : RateTable ℚ) : table.mirror.rows = table.rows.map Breakpoint.mirror :=
  rfl

@[simp] theorem mirror_mirror (table : RateTable ℚ) : table.mirror.mirror = table := by
  have involutive : Breakpoint.mirror ∘ Breakpoint.mirror = id :=
    funext Breakpoint.mirror_mirror
  simp [mirror, involutive]

theorem rowByKey_mirror (table : RateTable ℚ) (value : ℚ) :
    table.mirror.rowByKey value = (table.rowByValue value).mirror := by
  unfold rowByKey rowByValue rowAt
  rw [rows_mirror, List.map_map]
  exact List.getD_map ..

theorem inverse_eq_forward_mirror (table : RateTable ℚ) : table.inverse = table.mirror.forward := by
  funext value
  unfold inverse forward
  simp only [rowByKey_mirror, Breakpoint.key_mirror, Breakpoint.value_mirror,
    Breakpoint.rate_mirror]
  exact congrArg _ (div_eq_mul_inv _ _)

theorem Continues.mirror {row next : Breakpoint ℚ} (h : Continues row next) (rate : 0 < row.rate) :
    Continues row.mirror next.mirror := by
  unfold Continues at h ⊢
  simp only [Breakpoint.key_mirror, Breakpoint.value_mirror, Breakpoint.rate_mirror, h]
  have := rate.ne'
  field_simp
  ring

/-- An ascending table whose rows continue each other: it leaves out no value. -/
structure IsContinuous (table : RateTable ℚ) : Prop extends table.IsAscending where
  chain : table.rows.IsChain Continues

theorem IsContinuous.mirror {table : RateTable ℚ} (h : table.IsContinuous) :
    table.mirror.IsContinuous where
  origin := h.origin.symm
  keys := by
    rw [rows_mirror, List.pairwise_map]
    exact h.values
  values := by
    rw [rows_mirror, List.pairwise_map]
    exact h.keys
  rates := by
    rw [rows_mirror, List.forall_mem_map]
    exact fun row mem => inv_pos.mpr (h.rates row mem)
  chain := by
    rw [rows_mirror, List.isChain_map, List.isChain_iff_getElem]
    intro i hi
    exact (List.isChain_iff_getElem.mp h.chain i hi).mirror (h.rates _ (List.getElem_mem _))

theorem isContinuous_ofChanges (changes : List (RateChange ℚ)) {default : ℚ}
    (positive : 0 < default) : (ofChanges changes default).IsContinuous where
  toIsAscending := isAscending_ofChanges_iff.mpr (.inl (Scalar.isPositive_rat.mpr positive))
  chain := isChain_ofChanges changes default

/-! ## Lookup -/

theorem lastRow_mem {key : ℚ} {row : Breakpoint ℚ} {later : List (Breakpoint ℚ)} :
    lastRow key row later ∈ row :: later := by
  induction later generalizing row with
  | nil => exact List.mem_cons_self
  | cons next later ih =>
    rw [lastRow]
    split
    · exact List.mem_cons_of_mem _ ih
    · exact List.mem_cons_self

/-- The way back finds the row that the way there has found. -/
theorem lastRow_mirror {key : ℚ} {row : Breakpoint ℚ} {later : List (Breakpoint ℚ)}
    (chain : (row :: later).IsChain Continues)
    (keys : (row :: later).Pairwise fun row next => row.key < next.key)
    (rates : ∀ r ∈ row :: later, 0 < r.rate) :
    lastRow (extend (lastRow key row later) key) row.mirror (later.map Breakpoint.mirror) =
      (lastRow key row later).mirror := by
  induction later generalizing row with
  | nil => rfl
  | cons next later ih =>
    have rates' : ∀ r ∈ next :: later, 0 < r.rate := fun r mem =>
      rates r (List.mem_cons_of_mem _ mem)
    rw [List.isChain_cons_cons] at chain
    rw [List.pairwise_cons] at keys
    rw [List.map_cons]
    by_cases reached : next.key ≤ key
    · have above := value_le_extend_lastRow chain.2 keys.2 rates' reached
      have found : lastRow key row (next :: later) = lastRow key next later := if_pos reached
      rw [found, lastRow]
      exact (if_pos above).trans (ih chain.2 keys.2 rates')
    · have below : extend row key < next.value := by
        have := mul_lt_mul_of_pos_right (sub_lt_sub_right (not_le.mp reached) row.key)
          (rates row List.mem_cons_self)
        rw [chain.1, extend]
        linarith
      have found : lastRow key row (next :: later) = row := if_neg reached
      rw [found, lastRow]
      exact if_neg (not_le.mpr below)

/-! ## The result -/

section Cancel

variable {table : RateTable ℚ}

theorem rowByKey_mem (h : table.IsAscending) (key : ℚ) : table.rowByKey key ∈ table.rows := by
  rw [rowByKey_eq_lastRow h.keys]
  exact lastRow_mem

theorem rowByValue_forward (h : table.IsContinuous) (key : ℚ) :
    table.rowByValue (table.forward key) = table.rowByKey key := by
  have row : (table.rowByValue (table.forward key)).mirror = (table.rowByKey key).mirror := by
    rw [← rowByKey_mirror, rowByKey_eq_lastRow h.mirror.keys, forward_eq_extend h.keys,
      rowByKey_eq_lastRow h.keys]
    exact lastRow_mirror h.chain h.keys h.rates
  simpa using congrArg Breakpoint.mirror row

theorem inverse_forward (h : table.IsContinuous) (key : ℚ) :
    table.inverse (table.forward key) = key := by
  have rate := (h.rates _ (rowByKey_mem h.toIsAscending key)).ne'
  unfold inverse
  simp only [rowByValue_forward h]
  show _ + (_ + (key - _) * _ - _) / _ = key
  field_simp
  ring

/-- The way back is itself a way there. -/
theorem forward_inverse (h : table.IsContinuous) (value : ℚ) :
    table.forward (table.inverse value) = value := by
  have back := inverse_forward h.mirror value
  rwa [inverse_eq_forward_mirror, mirror_mirror, ← inverse_eq_forward_mirror] at back

end Cancel

/-- In the table of a list of changes over a positive default, the ways there and back cancel at
every key and every value, and the way there ascends. -/
theorem ofChanges_inverse (changes : List (RateChange ℚ)) {default : ℚ} (positive : 0 < default) :
    let table := ofChanges changes default
    (∀ key, table.inverse (table.forward key) = key) ∧
      (∀ value, table.forward (table.inverse value) = value) ∧ StrictMono table.forward := by
  intro table
  have continuous := isContinuous_ofChanges changes positive
  exact ⟨inverse_forward continuous, forward_inverse continuous,
    strictMono_forward continuous.toIsAscending continuous.chain⟩

/-- Bars of eight beats, from the third bar on of half a beat, and from the fifth on of three. -/
theorem ofChanges_inverse_bars :
    let table : RateTable ℚ := ofChanges [⟨4, 3⟩, ⟨2, 1 / 2⟩, ⟨3, 1 / 2⟩] 8
    (0 : ℚ) < 8 ∧ table.forward 5 = 20 ∧ table.inverse 20 = 5 ∧
      table.forward (table.inverse (-7)) = -7 ∧ table.forward 2 < table.forward 3 := by
  intro table
  have positive : (0 : ℚ) < 8 := by norm_num
  have value : table.forward 5 = 20 := by
    simp only [table, ofChanges, ofSchedule, sortBy_eq_sorted]
    decide +kernel
  obtain ⟨back, there, ascends⟩ := ofChanges_inverse [⟨4, 3⟩, ⟨2, 1 / 2⟩, ⟨3, 1 / 2⟩] positive
  exact ⟨positive, value, value ▸ back 5, there (-7), ascends (by norm_num)⟩

end RateTable

end CueCheck
