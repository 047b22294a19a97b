/-!
# Code points

A level text is made of characters, but an escape inside one of its strings may name any code point,
half of a surrogate pair included. Decoded strings are therefore lists of code points.

* `CodePoint.toNat_ofChar`, `CodePoint.ofChar_injective`: characters are code points, distinct ones
  distinct.
-/

namespace CueCheck

/-- A Unicode code point. Unlike a `Char` it may be a surrogate. -/
abbrev CodePoint := Fin 0x110000

/-- A string of code points. -/
abbrev Text := List CodePoint

namespace CodePoint

/-- The code point of a character. -/
def ofChar (c : Char) : CodePoint :=
  ⟨c.toNat, by
    have h : c.val.toNat.isValidChar := c.valid
    simp only [Nat.isValidChar] at h
    simp only [Char.toNat]
    omega⟩

@[simp] theorem toNat_ofChar (c : Char) : (ofChar c).val = c.toNat := rfl

theorem ofChar_injective {c d : Char} (h : ofChar c = ofChar d) : c = d := by
  have hn : c.val.toNat = d.val.toNat := congrArg (fun p : CodePoint => p.val) h
  exact Char.ext (UInt32.toNat_inj.1 hn)

/-- The code point with a given number, if there is one. -/
def ofInt? (n : Int) : Option CodePoint :=
  if h : 0 ≤ n ∧ n < 0x110000 then some ⟨n.toNat, by omega⟩ else none

/-- Half of a surrogate pair. -/
def isSurrogate (c : CodePoint) : Bool :=
  0xD800 ≤ c.val && c.val ≤ 0xDFFF

end CodePoint

namespace Text

/-- The code points of a string. -/
def ofString (s : String) : Text :=
  s.toList.map CodePoint.ofChar

/-- What a table has for a name. -/
def lookup {β : Type} (table : List (String × β)) (name : Text) : Option β :=
  (table.find? fun entry => ofString entry.1 == name).map (·.2)

end Text

end CueCheck
