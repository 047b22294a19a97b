import CueCheck.Level.Event
import CueCheck.Proofs.Binary64.Place
import CueCheck.Proofs.LevelText.Reading
import CueCheck.Proofs.Sorting
import Mathlib

/-!
# The numbers of a level object

A level object has numbers all over. What holds of each of them holds of the bars, beats and names
that are read off its events.

- **Conditions on numbers** (`Value.AllNumbers`): they carry over to the values of keys
  (`allNumbers_get`, `getNumber_of_allNumbers`).
- **Decoded values** (`allNumbers_decode`): every number of one is the number of some word, so none
  is NaN (`isNumber_decode`).
- **Bars** (`sortsByKey_bar`): events whose bars are numbers are sorted by them.
-/

namespace CueCheck

variable {α : Type} {P : Number α → Prop}

/-! ## Conditions on numbers -/

namespace Value

/-- A condition holds of all numbers that a value holds. -/
inductive AllNumbers (P : Number α → Prop) : Value α → Prop
  | null : AllNumbers P .null
  | bool (b : Bool) : AllNumbers P (.bool b)
  | number {n : Number α} (h : P n) : AllNumbers P (.number n)
  | text (t : Text) : AllNumbers P (.text t)
  | array {entries : List (Value α)} (h : ∀ entry ∈ entries, AllNumbers P entry) :
      AllNumbers P (.array entries)
  | object {members : Members α} (h : ∀ member ∈ members, AllNumbers P member.2) :
      AllNumbers P (.object members)

variable {members : Members α} {entries : List (Value α)} {entry value : Value α}

@[simp] theorem allNumbers_null : (null : Value α).AllNumbers P :=
  .null

@[simp] theorem allNumbers_bool (b : Bool) : (bool b : Value α).AllNumbers P :=
  .bool b

@[simp] theorem allNumbers_text (t : Text) : (text t : Value α).AllNumbers P :=
  .text t

@[simp] theorem allNumbers_number {n : Number α} : (number n).AllNumbers P ↔ P n :=
  ⟨fun | .number h => h, .number⟩

@[simp] theorem allNumbers_array :
    (array entries).AllNumbers P ↔ ∀ entry ∈ entries, entry.AllNumbers P :=
  ⟨fun | .array h => h, .array⟩

@[simp] theorem allNumbers_object :
    (object members).AllNumbers P ↔ ∀ member ∈ members, member.2.AllNumbers P :=
  ⟨fun | .object h => h, .object⟩

theorem AllNumbers.cons (h : (Value.array entries).AllNumbers P) (first : entry.AllNumbers P) :
    (Value.array (entry :: entries)).AllNumbers P :=
  .array (List.forall_mem_cons.mpr ⟨first, allNumbers_array.mp h⟩)

theorem AllNumbers.putMember (h : (Value.object members).AllNumbers P) (key : Text)
    (new : value.AllNumbers P) : (Value.object (putMember key value members)).AllNumbers P := by
  rw [allNumbers_object] at h ⊢
  induction members with
  | nil =>
    rw [Value.putMember, List.forall_mem_singleton]
    exact new
  | cons first rest ih =>
    obtain ⟨old, others⟩ := List.forall_mem_cons.mp h
    rw [Value.putMember]
    split
    · exact List.forall_mem_cons.mpr ⟨new, others⟩
    · exact List.forall_mem_cons.mpr ⟨old, ih others⟩

theorem allNumbers_get (h : (Value.object members).AllNumbers P) (key : String) :
    (get members key).AllNumbers P := by
  unfold get member?
  cases hl : members.lookup (Text.ofString key) with
  | none => exact .null
  | some value =>
    obtain ⟨before, after, rfl, -⟩ := List.lookup_eq_some_iff.mp hl
    exact allNumbers_object.mp h (Text.ofString key, value) (by simp)

theorem allNumbers_of_get {key : String} (h : (Value.object members).AllNumbers P)
    (array : get members key = .array entries) : ∀ entry ∈ entries, entry.AllNumbers P := by
  have all := allNumbers_get h key
  rwa [array, allNumbers_array] at all

theorem getNumber_of_allNumbers (h : (Value.object members).AllNumbers P) (key : String)
    {default : Number α} (hd : P default) : P (getNumber members key default) := by
  have value := allNumbers_get h key
  unfold getNumber
  split
  · rename_i n hn
    rw [hn] at value
    exact allNumbers_number.mp value
  · exact hd

end Value

/-! ## Decoded values -/

namespace LevelText

variable [Scalar α]

/-- A condition holds of the numbers of all that the readers read. -/
structure ReadsNumbers (P : Number α → Prop) (text : List Char) : Prop where
  value : (valueAt text).1.AllNumbers P
  opened : ∀ kind c, (openedAt kind c text).1.AllNumbers P
  members : ∀ gathered, (Value.object gathered).AllNumbers P →
    (membersAt gathered text).1.AllNumbers P
  entries : ∀ gathered, (Value.array gathered).AllNumbers P →
    (entriesAt gathered text).1.AllNumbers P

omit [Scalar α] in
theorem allNumbers_literal (word : Literal) : (word.value : Value α).AllNumbers P := by
  cases word with
  | true => exact .bool _
  | false => exact .bool _
  | null => exact .null

section Step

variable {text : List Char} (words : ∀ word, P (numberOfWord word))
  (shorter : ∀ inner : List Char, inner.length < text.length → ReadsNumbers P inner)
include shorter

theorem allNumbers_memberAt {gathered : Value.Members α}
    (h : (Value.object gathered).AllNumbers P) : (memberAt gathered text).1.AllNumbers P := by
  have inside := (nextToken_suffix (readString text).2).trans (readString_suffix text)
  unfold memberAt
  split
  · rename_i c afterColon hn
    rw [hn] at inside
    have value : afterColon.length < text.length := inside.length_le
    have rest : (valueAt (α := α) afterColon).2.length < text.length :=
      Nat.lt_of_le_of_lt (valueAt_suffix afterColon).length_le value
    exact (shorter _ rest).members _ (h.putMember _ (shorter _ value).value)
  · exact .null

theorem allNumbers_membersAt {gathered : Value.Members α}
    (h : (Value.object gathered).AllNumbers P) : (membersAt gathered text).1.AllNumbers P := by
  have inside := nextToken_suffix text
  have taken := @nextToken_lt text
  rw [membersAt_eq]
  cases hn : nextToken text with
  | mk token left =>
    rw [hn] at inside taken
    have member : (memberAt gathered left).1.AllNumbers P :=
      allNumbers_memberAt
        (fun inner hi => shorter inner (Nat.lt_of_lt_of_le hi inside.length_le)) h
    cases token with
    | finish => exact .null
    | unknown => exact .null
    | closeBrace => exact h
    | comma => exact (shorter left (taken nofun rfl)).members gathered h
    | _ => exact member

theorem allNumbers_entriesAt {gathered : List (Value α)}
    (h : (Value.array gathered).AllNumbers P) : (entriesAt gathered text).1.AllNumbers P := by
  have inside := nextToken_suffix text
  have taken := @nextToken_lt text
  rw [entriesAt_eq]
  cases hn : nextToken text with
  | mk token left =>
    rw [hn] at inside taken
    cases token with
    | finish => exact .null
    | unknown => exact .null
    | closeBracket =>
      exact .array fun entry mem => Value.allNumbers_array.mp h entry (List.mem_reverse.mp mem)
    | comma => exact (shorter left (taken nofun rfl)).entries gathered h
    | closeBrace => exact (shorter left (taken nofun rfl)).entries _ (h.cons .null)
    | literal word =>
      exact (shorter left (taken nofun rfl)).entries _ (h.cons (allNumbers_literal word))
    | colon =>
      cases left with
      | nil => exact .null
      | cons c left => exact (shorter left inside.length_le).entries gathered h
    | opening kind =>
      cases left with
      | nil => exact .null
      | cons c left =>
        have opened : left.length < text.length := inside.length_le
        have rest : (openedAt (α := α) kind c left).2.length < text.length :=
          Nat.lt_of_le_of_lt (openedAt_suffix kind c left).length_le opened
        exact (shorter _ rest).entries _ (h.cons ((shorter left opened).opened kind c))

include words

theorem allNumbers_openedAt (kind : Opening) (c : Char) :
    (openedAt kind c text : Value α × List Char).1.AllNumbers P := by
  cases kind with
  | brace =>
    rw [openedAt_brace]
    exact allNumbers_membersAt shorter (.object fun _ mem => nomatch mem)
  | bracket =>
    rw [openedAt_bracket]
    exact allNumbers_entriesAt shorter (.array fun _ mem => nomatch mem)
  | quote =>
    rw [openedAt_quote]
    exact .text _
  | number =>
    rw [openedAt_number]
    exact .number (words _)

omit words

theorem allNumbers_valueAt : (valueAt text : Value α × List Char).1.AllNumbers P := by
  have inside := nextToken_suffix text
  rw [valueAt_eq]
  cases hn : nextToken text with
  | mk token left =>
    rw [hn] at inside
    unfold valueFrom
    split
    · rename_i kind c rest heq
      cases heq
      exact (shorter rest inside.length_le).opened kind c
    · exact allNumbers_literal _
    · exact .null

end Step

theorem readsNumbers (words : ∀ word, P (numberOfWord word)) (text : List Char) :
    ReadsNumbers P text := by
  have shorter (inner : List Char) (_ : inner.length < text.length) : ReadsNumbers P inner :=
    readsNumbers words inner
  exact
    { value := allNumbers_valueAt shorter
      opened := allNumbers_openedAt words shorter
      members := fun _ => allNumbers_membersAt shorter
      entries := fun _ => allNumbers_entriesAt shorter }
termination_by text.length

/-- What holds of the number of every word holds of the numbers of a decoded value. -/
theorem allNumbers_decode (words : ∀ word, P (numberOfWord word)) (text : List Char) :
    (decode text).AllNumbers P :=
  (readsNumbers words (dropMark text)).value

theorem isNumber_decode (text : List Char) :
    (decode text : Value Float).AllNumbers Number.IsNumber := by
  refine allNumbers_decode (fun word => ?_) text
  unfold numberOfWord
  split
  · show Binary64.exact _ ≠ .nan
    cases decimal? word with
    | none => decide +kernel
    | some d => exact Binary64.toScalar_ne_nan d
  · exact fun h => by cases h

end LevelText

/-! ## Bars -/

/-- Events whose bars are numbers are sorted by the places of the bars. -/
theorem sortsByKey_bar {events : List (Event Float)}
    (h : ∀ event ∈ events, (Value.object event).AllNumbers Number.IsNumber) :
    SortsByKey (fun a b : Event Float => a.bar.less b.bar) (fun event => event.bar.exact.place)
      events := by
  have bar (event : Event Float) (mem : event ∈ events) : event.bar.IsNumber :=
    Value.getNumber_of_allNumbers (h event mem) "bar" (fun h => by cases h)
  intro a ha b hb
  exact Number.less_eq_place (bar a ha) (bar b hb)

end CueCheck
