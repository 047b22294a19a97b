import CueCheck.Proofs.RateTable.Ascending
import Mathlib

/-!
# The rate in force

Read plainly, a list of changes gives each place the rate of the valid change with the greatest key
that has been reached there, the one listed last if several have that key. The schedule of the
changes gives the same rates.

- **The reading** (`RateChange.reached`, `rateInForce`): places are numbers of any ordered field, so
  that the rate can be integrated. Before the start the rate of the start is in force.
- **Keys** (`IsLatest`): at each key, only the change listed last counts.
- **Schedules** (`mem_entries_ofChanges_iff`): their entries are the latest of the default and the
  valid changes, and the last one reached gives the rate in force (`rateInForce_of_entry`).
- **Entries that follow each other** (`Follows`, `follows_rateInForce`): from each entry of a
  schedule up to the next one, the rate in force is that of the entry.
-/

namespace CueCheck

open Scalar

/-! ## The reading -/

section Reading

variable {K : Type} [Field K] [LinearOrder K]

/-- The valid changes that have been reached at a place, as they are listed. -/
def RateChange.reached (changes : List (RateChange ℚ)) (x : K) : List (RateChange ℚ) :=
  changes.filter fun change => 0 ≤ change.key ∧ 0 < change.rate ∧ (change.key : K) ≤ max x 0

/-- The rate of the valid change with the greatest key reached, the one listed last among changes at
that key, or the default if none is reached. -/
def rateInForce (changes : List (RateChange ℚ)) (default : ℚ) (x : K) : ℚ :=
  (((RateChange.reached changes x).reverse.argmax RateChange.key).map RateChange.rate).getD default

end Reading

theorem RateChange.isValid_iff {change : RateChange ℚ} :
    change.isValid = true ↔ 0 ≤ change.key ∧ 0 < change.rate := by
  have rate : decide (change.rate ≤ zero) = decide (change.rate ≤ 0) := rfl
  have key : less change.key zero = decide (change.key < 0) := rfl
  simp [isValid, rate, key]

/-! ## Keys -/

section Latest

variable {changes : List (RateChange ℚ)} {change entry : RateChange ℚ}

/-- No change listed after the entry has its key. -/
def IsLatest (changes : List (RateChange ℚ)) (entry : RateChange ℚ) : Prop :=
  ∃ before after, changes = before ++ entry :: after ∧ ∀ later ∈ after, later.key ≠ entry.key

theorem IsLatest.mem (h : IsLatest changes entry) : entry ∈ changes := by
  obtain ⟨before, after, rfl, -⟩ := h
  exact List.mem_append_right _ List.mem_cons_self

theorem not_isLatest_nil : ¬IsLatest [] entry :=
  fun h => List.not_mem_nil h.mem

theorem isLatest_concat_iff :
    IsLatest (changes ++ [change]) entry ↔
      entry = change ∨ (IsLatest changes entry ∧ entry.key ≠ change.key) := by
  constructor
  · rintro ⟨before, after, h, latest⟩
    rcases List.eq_nil_or_concat after with rfl | ⟨after, last, rfl⟩
    · obtain ⟨-, e⟩ := List.append_inj' h rfl
      exact .inl (List.singleton_inj.mp e).symm
    · rw [List.concat_eq_append, ← List.cons_append, ← List.append_assoc] at h
      obtain ⟨rfl, e⟩ := List.append_inj' h rfl
      obtain rfl := List.singleton_inj.mp e
      refine .inr ⟨⟨before, after, rfl, fun later mem => latest later ?_⟩, ?_⟩
      · simp [mem]
      · exact (latest change (by simp)).symm
  · rintro (rfl | ⟨⟨before, after, rfl, latest⟩, apart⟩)
    · exact ⟨changes, [], rfl, by simp⟩
    · refine ⟨before, after ++ [change], by simp, fun later mem => ?_⟩
      rcases List.mem_append.mp mem with mem | mem
      · exact latest later mem
      · rw [List.mem_singleton.mp mem]
        exact apart.symm

/-- The key of a change has a latest change. -/
theorem exists_isLatest (h : change ∈ changes) :
    ∃ entry, IsLatest changes entry ∧ entry.key = change.key := by
  induction changes using List.reverseRecOn with
  | nil => cases h
  | append_singleton changes last ih =>
    by_cases same : change.key = last.key
    · exact ⟨last, isLatest_concat_iff.mpr (.inl rfl), same.symm⟩
    · have mem : change ∈ changes := by
        rcases List.mem_append.mp h with mem | mem
        · exact mem
        · rw [List.mem_singleton.mp mem] at same
          exact absurd rfl same
      obtain ⟨entry, latest, key⟩ := ih mem
      exact ⟨entry, isLatest_concat_iff.mpr (.inr ⟨latest, key ▸ same⟩), key⟩

end Latest

/-! ## Schedules -/

namespace RateSchedule

/-- All rates of a schedule, with the keys from which they are in force. -/
def entries (schedule : RateSchedule ℚ) : List (RateChange ℚ) :=
  ⟨0, schedule.start⟩ :: schedule.later

theorem mem_replace_iff {change entry : RateChange ℚ} {entries : List (RateChange ℚ)}
    (distinct : (entries.map RateChange.key).Nodup) :
    entry ∈ put.replace change entries ↔
      entry = change ∨ (entry ∈ entries ∧ entry.key ≠ change.key) := by
  induction entries with
  | nil => simp [put.replace]
  | cons old rest ih =>
    obtain ⟨fresh, distinct⟩ := List.nodup_cons.mp distinct
    rw [put.replace]
    by_cases same : old.key = change.key
    · have apart (mem : entry ∈ rest) : entry.key ≠ change.key := fun key =>
        fresh (same ▸ key ▸ List.mem_map_of_mem mem)
      rw [if_pos (beq_iff_eq.mpr same), same, List.mem_cons, List.mem_cons]
      constructor
      · rintro (rfl | mem)
        · exact .inl rfl
        · exact .inr ⟨.inr mem, apart mem⟩
      · rintro (rfl | ⟨rfl | mem, key⟩)
        · exact .inl rfl
        · exact absurd same key
        · exact .inr mem
    · rw [if_neg (fun h => same (beq_iff_eq.mp h)), List.mem_cons, List.mem_cons, ih distinct]
      constructor
      · rintro (rfl | rfl | ⟨mem, key⟩)
        · exact .inr ⟨.inl rfl, same⟩
        · exact .inl rfl
        · exact .inr ⟨.inr mem, key⟩
      · rintro (rfl | ⟨rfl | mem, key⟩)
        · exact .inr (.inl rfl)
        · exact .inl rfl
        · exact .inr (.inr ⟨mem, key⟩)

/-- A change at any key, the start included, replaces the entry with its key. -/
theorem entries_put (schedule : RateSchedule ℚ) (change : RateChange ℚ) :
    (schedule.put change).entries = put.replace change schedule.entries := by
  have start : ((0 : ℚ) == change.key) = (change.key == zero) := by
    rw [Bool.eq_iff_iff, beq_iff_eq]
    exact eq_comm.trans (beq_iff_eq (b := (0 : ℚ))).symm
  unfold entries put
  rw [put.replace, start]
  split <;> rfl

theorem IsProper.distinct_entries {schedule : RateSchedule ℚ} (h : schedule.IsProper) :
    (schedule.entries.map RateChange.key).Nodup := by
  refine List.nodup_cons.mpr ⟨fun mem => ?_, h.distinct⟩
  obtain ⟨entry, later, key⟩ := List.mem_map.mp mem
  exact absurd key (h.after entry later).ne'

/-- A schedule holds the default and the valid changes, of those at one key the one listed last. -/
theorem mem_entries_ofChanges_iff {changes : List (RateChange ℚ)} {default : ℚ}
    {entry : RateChange ℚ} :
    entry ∈ (ofChanges changes default).entries ↔
      IsLatest (⟨0, default⟩ :: changes.filter RateChange.isValid) entry := by
  induction changes using List.reverseRecOn generalizing entry with
  | nil =>
    have alone : IsLatest ([] ++ [⟨0, default⟩]) entry ↔ entry = ⟨0, default⟩ := by
      rw [isLatest_concat_iff, or_iff_left fun h => not_isLatest_nil h.1]
    exact List.mem_singleton.trans alone.symm
  | append_singleton changes change ih =>
    have proper := isProper_ofChanges changes default
    unfold ofChanges at ih proper ⊢
    rw [List.filter_append, List.foldl_append, ← List.cons_append]
    by_cases valid : change.isValid = true
    · rw [List.filter_cons_of_pos valid, List.filter_nil, List.foldl_cons, List.foldl_nil,
        entries_put, mem_replace_iff proper.distinct_entries, isLatest_concat_iff, ih]
    · rw [List.filter_cons_of_neg valid, List.filter_nil, List.foldl_nil, List.append_nil]
      exact ih

end RateSchedule

/-- The rows of a table stand at entries of the schedule. -/
theorem RateTable.change_mem_entries {changes : List (RateChange ℚ)} {default : ℚ}
    {row : Breakpoint ℚ} (h : row ∈ (RateTable.ofChanges changes default).rows) :
    row.change ∈ (RateSchedule.ofChanges changes default).entries := by
  rcases List.mem_cons.mp h with rfl | h
  · exact List.mem_cons_self
  · have stand := (RateTable.accumulate_sublist _ _).subset (List.mem_map_of_mem h)
    exact List.mem_cons_of_mem _ (mem_sortBy.mp stand)

/-! ## The rate of an entry -/

section Entries

variable {K : Type} [Field K] [LinearOrder K] {changes : List (RateChange ℚ)} {default : ℚ}

theorem argmax_append_cons {β : Type} {f : β → ℚ} {before after : List β} {m : β}
    (first : ∀ b ∈ before, f b < f m) (rest : ∀ a ∈ after, f a ≤ f m) :
    (before ++ m :: after).argmax f = some m := by
  induction before with
  | nil =>
    rw [List.nil_append, List.argmax_cons]
    cases h : after.argmax f with
    | none => rfl
    | some c => exact if_neg (not_lt.mpr (rest c (List.argmax_mem h)))
  | cons b before ih =>
    obtain ⟨hb, first⟩ := List.forall_mem_cons.mp first
    rw [List.cons_append, List.argmax_cons, ih first]
    exact if_pos hb

theorem RateChange.reached_eq (changes : List (RateChange ℚ)) (x : K) :
    reached changes x =
      (changes.filter isValid).filter fun change => (change.key : K) ≤ max x 0 := by
  rw [reached, List.filter_filter]
  refine List.filter_congr fun change _ => ?_
  rw [Bool.eq_iff_iff]
  simp only [Bool.and_eq_true, decide_eq_true_eq, isValid_iff]
  exact and_assoc.symm.trans and_comm

/-- The last entry of a schedule that has been reached gives the rate in force. -/
theorem rateInForce_of_entry {entry : RateChange ℚ} {x : K} (start : 0 ≤ x)
    (mem : entry ∈ (RateSchedule.ofChanges changes default).entries) (reached : entry.key ≤ x)
    (last : ∀ other ∈ (RateSchedule.ofChanges changes default).entries,
      (other.key : K) ≤ x → other.key ≤ entry.key) :
    rateInForce changes default x = entry.rate := by
  have within {change : RateChange ℚ} (mem : change ∈ changes.filter RateChange.isValid)
      (key : (change.key : K) ≤ max x 0) : change.key ≤ entry.key := by
    obtain ⟨other, latest, same⟩ :=
      exists_isLatest (List.mem_cons_of_mem (⟨0, default⟩ : RateChange ℚ) mem)
    rw [max_eq_left start] at key
    rw [← same] at key ⊢
    exact last other (RateSchedule.mem_entries_ofChanges_iff.mpr latest) key
  obtain ⟨before, after, split, latest⟩ := RateSchedule.mem_entries_ofChanges_iff.mp mem
  unfold rateInForce
  rw [RateChange.reached_eq]
  cases before with
  | nil =>
    -- No valid change stands at the start, and none after it has been reached.
    obtain ⟨rfl, rfl⟩ := List.cons.inj split
    have none : ((changes.filter RateChange.isValid).filter fun change =>
        (change.key : K) ≤ max x 0) = [] := by
      refine List.filter_eq_nil_iff.mpr fun change mem key => ?_
      have valid := RateChange.isValid_iff.mp (List.mem_filter.mp mem).2
      exact latest change mem (le_antisymm (within mem (of_decide_eq_true key)) valid.1)
    rw [none]
    rfl
  | cons default before =>
    have split : changes.filter RateChange.isValid = before ++ entry :: after :=
      (List.cons.inj split).2
    rw [split] at within ⊢
    have here : decide ((entry.key : K) ≤ max x 0) = true :=
      decide_eq_true (reached.trans (le_max_left x 0))
    rw [List.filter_append, List.filter_cons, if_pos here, List.reverse_append, List.reverse_cons,
      List.append_assoc, List.singleton_append, argmax_append_cons]
    · rfl
    · intro change mem
      obtain ⟨mem, key⟩ := List.mem_filter.mp (List.mem_reverse.mp mem)
      exact lt_of_le_of_ne (within (by simp [mem]) (of_decide_eq_true key)) (latest change mem)
    · intro change mem
      obtain ⟨mem, key⟩ := List.mem_filter.mp (List.mem_reverse.mp mem)
      exact within (by simp [mem]) (of_decide_eq_true key)

/-! ## Entries that follow each other -/

/-- From each entry up to the next one, `f` is the rate of the entry. -/
def Follows (f : K → ℚ) (entry : RateChange ℚ) : List (RateChange ℚ) → Prop
  | [] => ∀ x : K, entry.key ≤ x → f x = entry.rate
  | next :: later =>
    (∀ x : K, entry.key ≤ x → x < next.key → f x = entry.rate) ∧ Follows f next later

/-- A function that follows a rate up to an entry, and from there on entries that begin with that
rate, follows them without that entry. -/
theorem Follows.extend {f : K → ℚ} {entry next : RateChange ℚ} {later : List (RateChange ℚ)}
    (here : ∀ x : K, entry.key ≤ x → x < next.key → f x = entry.rate)
    (rate : next.rate = entry.rate) (h : Follows f next later) : Follows f entry later := by
  have joined (x : K) (reached : entry.key ≤ x) (after : (next.key : K) ≤ x → f x = next.rate) :
      f x = entry.rate := by
    rcases lt_or_ge x next.key with before | past
    · exact here x reached before
    · exact (after past).trans rate
  cases later with
  | nil => exact fun x reached => joined x reached (h x)
  | cons third later =>
    exact ⟨fun x reached before => joined x reached fun past => h.1 x past before, h.2⟩

variable [IsStrictOrderedRing K]

/-- Up to the start the rate of the start is in force. -/
theorem rateInForce_of_nonpos {x : K} (h : x ≤ 0) :
    rateInForce changes default x = (RateSchedule.ofChanges changes default).start := by
  have start : rateInForce changes default x = rateInForce changes default (0 : K) := by
    unfold rateInForce RateChange.reached
    rw [max_eq_right h, max_self]
  have first : (⟨0, (RateSchedule.ofChanges changes default).start⟩ : RateChange ℚ) ∈
      (RateSchedule.ofChanges changes default).entries := List.mem_cons_self
  rw [start]
  exact rateInForce_of_entry le_rfl first Rat.cast_zero.le fun _ _ key => Rat.cast_nonpos.mp key

/-- A function follows ascending entries if it takes the rate of the last one reached. -/
theorem follows_of_last {f : K → ℚ} {entry : RateChange ℚ} {later : List (RateChange ℚ)}
    (keys : (entry :: later).Pairwise fun entry next => entry.key < next.key)
    (last : ∀ e ∈ entry :: later, ∀ x : K, e.key ≤ x →
      (∀ other ∈ entry :: later, (other.key : K) ≤ x → other.key ≤ e.key) → f x = e.rate) :
    Follows f entry later := by
  induction later generalizing entry with
  | nil =>
    refine fun x reached => last entry List.mem_cons_self x reached fun other mem _ => ?_
    rw [List.mem_singleton.mp mem]
  | cons next later ih =>
    obtain ⟨first, keys⟩ := List.pairwise_cons.mp keys
    refine ⟨fun x reached before => last entry List.mem_cons_self x reached ?_, ih keys ?_⟩
    · intro other mem key
      rcases List.mem_cons.mp mem with rfl | mem
      · exact le_rfl
      · -- All later entries begin where the next one does, or after it.
        have le : next.key ≤ other.key := by
          rcases List.mem_cons.mp mem with rfl | mem
          · exact le_rfl
          · exact ((List.pairwise_cons.mp keys).1 other mem).le
        exact absurd (before.trans_le (Rat.cast_le.mpr le)) (not_lt.mpr key)
    · intro e mem x reached lastOfRest
      refine last e (List.mem_cons_of_mem _ mem) x reached fun other mem' key => ?_
      rcases List.mem_cons.mp mem' with rfl | mem'
      · exact (first e mem).le
      · exact lastOfRest other mem' key

/-- The rate in force follows the entries of the schedule in ascending order. -/
theorem follows_rateInForce (changes : List (RateChange ℚ)) (default : ℚ) :
    Follows (rateInForce changes default : K → ℚ)
      ⟨0, (RateSchedule.ofChanges changes default).start⟩
      (sortBy (fun a b => less a.key b.key) (RateSchedule.ofChanges changes default).later) := by
  set schedule := RateSchedule.ofChanges changes default
  have mem_iff (entry : RateChange ℚ) :
      entry ∈ ⟨0, schedule.start⟩ :: sortBy (fun a b => less a.key b.key) schedule.later ↔
        entry ∈ schedule.entries := by
    unfold RateSchedule.entries
    rw [List.mem_cons, List.mem_cons, mem_sortBy]
  have proper := RateSchedule.isProper_ofChanges changes default
  refine follows_of_last proper.pairwise_key fun entry mem x reached last => ?_
  have mem := (mem_iff entry).mp mem
  have start : 0 ≤ entry.key := by
    rcases List.mem_cons.mp mem with rfl | mem
    · exact le_rfl
    · exact (proper.after entry mem).le
  exact rateInForce_of_entry ((Rat.cast_nonneg.mpr start).trans reached) mem reached
    fun other mem => last other ((mem_iff other).mpr mem)

end Entries

end CueCheck
