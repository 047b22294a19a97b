import CueCheck.Text.Numeral
import Mathlib.Data.List.Forall2

/-!
# Numerals made of digits

A word of digits, with nothing around or between them, writes the number that its digits write.

- **Words of digits** (`IsDigits`): each character is the digit of a value. Nothing is trimmed off
  such a word (`trimBlanks_of_forall`) and it has no mark (`spanDigits_of_isDigits`).
- **Decimal integers** (`integer?_of_isDigit`, `integer?_neg`): ASCII digits write the number that
  core reads in them, with a minus sign or without.
- **Hexadecimal integers** (`hexInteger?_of_isDigits`).
-/

namespace CueCheck

/-! ## Words of digits -/

/-- The characters of a word are the digits of some values. -/
def IsDigits (digit? : Char → Option Nat) (word : List Char) (values : List Nat) : Prop :=
  List.Forall₂ (fun c d => digit? c = some d) word values

variable {digit? : Char → Option Nat} {word : List Char} {values : List Nat}

theorem trimBlanks_of_forall (h : ∀ c ∈ word, isBlank c = false) : trimBlanks word = word := by
  have untouched {w : List Char} (h : ∀ c ∈ w, isBlank c = false) : w.dropWhile isBlank = w := by
    cases w with
    | nil => rfl
    | cons c w => rw [List.dropWhile_cons_of_neg (by simp [h c List.mem_cons_self])]
  unfold trimBlanks
  rw [untouched h, untouched fun c hc => h c (List.mem_reverse.mp hc), List.reverse_reverse]

theorem more_of_isDigits (underscore : digit? '_' = none) (h : IsDigits digit? word values) :
    spanDigits.more digit? word = (values, []) := by
  induction h with
  | nil => rfl
  | @cons c d word values hc _ ih =>
    have plain : c ≠ '_' := by
      rintro rfl
      rw [underscore] at hc
      cases hc
    unfold spanDigits.more
    split
    · rename_i e
      cases e
      exact absurd rfl plain
    · rename_i e
      cases e
      rw [hc]
      simp only [ih]
    · rename_i e
      cases e

theorem spanDigits_of_isDigits (underscore : digit? '_' = none) (h : IsDigits digit? word values) :
    spanDigits digit? word = (values, []) := by
  cases h with
  | nil => rfl
  | cons hc h =>
    simp only [spanDigits, hc, more_of_isDigits underscore h]

/-! ## Decimal integers -/

/-- Decimal digits of ASCII, with their values. -/
theorem isDigits_of_isDigit (h : ∀ c ∈ word, c.isDigit = true) :
    IsDigits decimalDigit? word (word.map fun c => c.toNat - 0x30) := by
  unfold IsDigits
  rw [List.forall₂_map_right_iff, List.forall₂_same]
  exact fun c hc => decimalDigit?_isDigit (h c hc)

theorem ofDigits_eq_ofDigitChars (word : List Char) :
    ofDigits 10 (word.map fun c => c.toNat - 0x30) = Nat.ofDigitChars 10 word 0 := by
  unfold ofDigits
  rw [List.foldl_map, Nat.ofDigitChars_eq_foldl]
  congr 1
  funext n c
  rw [Nat.mul_comm]
  rfl

theorem isBlank_of_isDigit {c : Char} (h : c.isDigit = true) : isBlank c = false := by
  have hc : 48 ≤ c.toNat ∧ c.toNat ≤ 57 := by
    simp only [Char.isDigit, Bool.and_eq_true, decide_eq_true_eq] at h
    exact ⟨UInt32.le_iff_toNat_le.1 h.1, UInt32.le_iff_toNat_le.1 h.2⟩
  unfold isBlank
  simp only [Bool.or_eq_false_iff, Bool.and_eq_false_iff, decide_eq_false_iff_not,
    beq_eq_false_iff_ne]
  omega

theorem splitSign_of_ne {c : Char} (hm : c ≠ '-') (hp : c ≠ '+') (rest : List Char) :
    splitSign (c :: rest) = (false, c :: rest) := by
  unfold splitSign
  split
  · rename_i e
    cases e
    exact absurd rfl hm
  · rename_i e
    cases e
    exact absurd rfl hp
  · rfl

/-- What a sign and digits after it write. -/
theorem integer?_of_splitSign {body : List Char} {negative : Bool}
    (hs : splitSign word = (negative, body)) (hb : ∀ c ∈ word, isBlank c = false) (hne : body ≠ [])
    (hd : ∀ c ∈ body, c.isDigit = true) (hl : body.length ≤ integerDigitLimit) :
    integer? word = some (withSign negative (Nat.ofDigitChars 10 body 0)) := by
  obtain ⟨c, rest, rfl⟩ := List.exists_cons_of_ne_nil hne
  have short : (rest.map fun c => c.toNat - 0x30).length < integerDigitLimit := by
    rw [List.length_map]
    exact Nat.lt_of_succ_le hl
  unfold integer?
  rw [trimBlanks_of_forall hb, hs]
  simp only [spanDigits_of_isDigits (by decide) (isDigits_of_isDigit hd), List.map_cons]
  rw [if_pos short, ← ofDigits_eq_ofDigitChars, List.map_cons]

theorem integer?_of_isDigit (hne : word ≠ []) (hd : ∀ c ∈ word, c.isDigit = true)
    (hl : word.length ≤ integerDigitLimit) :
    integer? word = some (Nat.ofDigitChars 10 word 0 : Int) := by
  have hs : splitSign word = (false, word) := by
    obtain ⟨c, rest, rfl⟩ := List.exists_cons_of_ne_nil hne
    have hc := hd c List.mem_cons_self
    exact splitSign_of_ne (by rintro rfl; cases hc) (by rintro rfl; cases hc) rest
  exact integer?_of_splitSign hs (fun c hc => isBlank_of_isDigit (hd c hc)) hne hd hl

theorem integer?_neg (hne : word ≠ []) (hd : ∀ c ∈ word, c.isDigit = true)
    (hl : word.length ≤ integerDigitLimit) :
    integer? ('-' :: word) = some (-(Nat.ofDigitChars 10 word 0 : Int)) := by
  refine integer?_of_splitSign rfl (fun c hc => ?_) hne hd hl
  rcases List.mem_cons.mp hc with rfl | hc
  · decide
  · exact isBlank_of_isDigit (hd c hc)

/-! ## Hexadecimal integers -/

/-- Digits without a sign or a mark among them write the number that they write in base sixteen. -/
theorem hexInteger?_of_isDigits (hne : word ≠ []) (h : IsDigits hexDigit? word values)
    (plain : ∀ c ∈ word, isBlank c = false ∧ c ∉ ['-', '+', 'x', 'X']) :
    hexInteger? word = some (ofDigits 16 values : Int) := by
  have unmarked : dropHexMark word = word := by
    unfold dropHexMark
    split
    · rename_i zero x rest
      have hx := (plain x (by simp)).2
      rw [if_neg]
      rintro ⟨-, rfl | rfl⟩ <;> simp at hx
    · rfl
  have hs : splitSign word = (false, word) := by
    obtain ⟨c, rest, rfl⟩ := List.exists_cons_of_ne_nil hne
    have hc := (plain c List.mem_cons_self).2
    exact splitSign_of_ne (by rintro rfl; simp at hc) (by rintro rfl; simp at hc) rest
  cases h with
  | nil => exact absurd rfl hne
  | cons hc h =>
    unfold hexInteger?
    rw [trimBlanks_of_forall fun c hc => (plain c hc).1, hs]
    simp only [unmarked, spanDigits_of_isDigits (by decide) (.cons hc h)]
    rfl

end CueCheck
