import CueCheck.Number
import CueCheck.Text.CodePoint

/-!
# Values of a level text

A level text decodes to a tree of objects and arrays over numbers, strings, truth values and null.

* `Value.putMember` adds a member to an object; the last value of a key counts
  (`member?_putMember_self`, `member?_putMember_of_ne`).
* `Value.isTruthy` tells what counts as set: null, false, zero and what is empty do not.
* `Value.get` and `Value.getNumber` look a key up and give null or a default where it is missing.
-/

namespace CueCheck

/-- A decoded value. -/
inductive Value (α : Type) where
  | null
  | bool (b : Bool)
  | number (n : Number α)
  | text (t : Text)
  | array (entries : List (Value α))
  | object (members : List (Text × Value α))

namespace Value

variable {α : Type}

/-- Members of an object, in the order in which their keys first came. -/
abbrev Members (α : Type) := List (Text × Value α)

/-- Gives a key a value, in place of the value that it had before. -/
def putMember (key : Text) (value : Value α) : Members α → Members α
  | [] => [(key, value)]
  | (k, v) :: rest => if k = key then (k, value) :: rest else (k, v) :: putMember key value rest

/-- The value of a key. -/
def member? (key : Text) (members : Members α) : Option (Value α) :=
  members.lookup key

/-- Set, as opposed to null, false, zero and empty. -/
def isTruthy [Scalar α] : Value α → Bool
  | null => false
  | bool b => b
  | number n => !n.isZero
  | text t => !t.isEmpty
  | array entries => !entries.isEmpty
  | object members => !members.isEmpty

/-- The value of a key of an object, null if there is none. -/
def get (members : Members α) (key : String) : Value α :=
  (member? (Text.ofString key) members).getD .null

/-- The number that a key of an object has, or the default if it has no number. -/
def getNumber (members : Members α) (key : String) (default : Number α) : Number α :=
  match get members key with
  | .number n => n
  | _ => default

/-- A key of an object is set. -/
def hasTruthy [Scalar α] (members : Members α) (key : String) : Bool :=
  (get members key).isTruthy

/-- A value is the given string. -/
def isText (value : Value α) (s : String) : Bool :=
  match value with
  | .text t => t == Text.ofString s
  | _ => false

/-- The members of an object. -/
def members? : Value α → Option (Members α)
  | .object members => some members
  | _ => none

/-- The value of a key just put is the one put. -/
theorem member?_putMember_self (key : Text) (value : Value α) (members : Members α) :
    member? key (putMember key value members) = some value := by
  induction members with
  | nil => simp [member?, putMember]
  | cons m rest ih =>
    obtain ⟨k, v⟩ := m
    unfold putMember
    split
    · rename_i h; simp [member?, h]
    · rename_i h
      have hne : (key == k) = false := by simpa using fun hk : key = k => h hk.symm
      simp only [member?, List.lookup_cons, hne] at ih ⊢
      exact ih

/-- Other keys keep their values. -/
theorem member?_putMember_of_ne {key other : Text} (h : other ≠ key) (value : Value α)
    (members : Members α) :
    member? other (putMember key value members) = member? other members := by
  have hne : (other == key) = false := by simpa using h
  induction members with
  | nil => simp [member?, putMember, List.lookup_cons, hne]
  | cons m rest ih =>
    obtain ⟨k, v⟩ := m
    unfold putMember
    split
    · rename_i hk; subst hk; simp [member?, List.lookup_cons, hne]
    · simp only [member?, List.lookup_cons] at ih ⊢
      split <;> simp_all

end Value

end CueCheck
