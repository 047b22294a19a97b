import CueCheck.Text.Printable

/-!
# Quoted names

A name in a message stands between quotes, and every character of it can be seen: those that cannot
be shown as they are, the quote and the backslash are escaped.

* `length_hexDigits`: a number in an escape has a fixed width.
-/

namespace CueCheck

/-- The digits of a number in hexadecimal, with zeros in front up to a width. -/
def hexDigits : (width : Nat) → Nat → List Char
  | 0, _ => []
  | width + 1, n => hexDigits width (n / 16) ++ [Nat.digitChar (n % 16)]

theorem length_hexDigits (width n : Nat) : (hexDigits width n).length = width := by
  induction width generalizing n with
  | zero => rfl
  | succ width ih => rw [hexDigits, List.length_append, ih, List.length_singleton]

/-- The escape of a character by its number, in as many digits as it takes: two, four or eight. -/
def numberedEscape (c : Char) : List Char :=
  if c.toNat < 0x100 then '\\' :: 'x' :: hexDigits 2 c.toNat
  else if c.toNat < 0x10000 then '\\' :: 'u' :: hexDigits 4 c.toNat
  else '\\' :: 'U' :: hexDigits 8 c.toNat

/-- A character as it stands in a name between quotes. -/
def escapeIn (quote c : Char) : List Char :=
  if c = quote ∨ c = '\\' then ['\\', c]
  else if c = '\n' then ['\\', 'n']
  else if c = '\r' then ['\\', 'r']
  else if c = '\t' then ['\\', 't']
  else if isPrintable c then [c]
  else numberedEscape c

/-- The quote for a name: a single one, or a double one if only single ones stand in the name. -/
def quoteFor (name : List Char) : Char :=
  if '\'' ∈ name ∧ '"' ∉ name then '"' else '\''

/-- A name between quotes. -/
def quotedName (name : String) : String :=
  let quote := quoteFor name.toList
  String.ofList (quote :: name.toList.flatMap (escapeIn quote) ++ [quote])

end CueCheck
