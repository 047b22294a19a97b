import CueCheck.Scalar
import CueCheck.Text.Blank
import CueCheck.Text.Digit

/-!
# Numerals

The written forms of integers and of decimal numbers. Blanks around a numeral do not count, and a
single underscore may stand between two digits.

* `integer?` reads a decimal integer with an optional sign.
* `hexInteger?` reads a hexadecimal one, which may begin with `0x`.
* `decimal?` reads a decimal number: digits with an optional point among or around them, and an
  optional exponent.
-/

namespace CueCheck

/-- Splits off the digits at the front of a word, with the single underscores between them. -/
def spanDigits (digit? : Char → Option Nat) : List Char → List Nat × List Char
  | [] => ([], [])
  | c :: rest =>
    match digit? c with
    | some d => (d :: (more rest).1, (more rest).2)
    | none => ([], c :: rest)
where
  /-- The digits that may follow a digit. -/
  more : List Char → List Nat × List Char
    | '_' :: c :: rest =>
      match digit? c with
      | some d => (d :: (more rest).1, (more rest).2)
      | none => ([], '_' :: c :: rest)
    | c :: rest =>
      match digit? c with
      | some d => (d :: (more rest).1, (more rest).2)
      | none => ([], c :: rest)
    | [] => ([], [])

/-- The number that digits write in a base. -/
def ofDigits (base : Nat) (digits : List Nat) : Nat :=
  digits.foldl (fun n d => n * base + d) 0

/-- A word's sign and the rest of it; no sign is a plus. -/
def splitSign : List Char → Bool × List Char
  | '-' :: rest => (true, rest)
  | '+' :: rest => (false, rest)
  | rest => (false, rest)

/-- An integer with a sign. -/
def withSign (negative : Bool) (magnitude : Nat) : Int :=
  if negative then -magnitude else magnitude

/-- Decimal integers with more digits than this are refused. -/
def integerDigitLimit : Nat := 4300

/-- Reads a decimal integer. -/
def integer? (word : List Char) : Option Int :=
  let (negative, body) := splitSign (trimBlanks word)
  match spanDigits decimalDigit? body with
  | (d :: digits, []) =>
    if digits.length < integerDigitLimit then some (withSign negative (ofDigits 10 (d :: digits)))
    else none
  | _ => none

/-- Drops the mark of a hexadecimal integer, a zero and an `x`, and an underscore after the mark.
Like any digit, the zero may be of any script. -/
def dropHexMark : List Char → List Char
  | zero :: x :: rest =>
    if decimalDigit? zero = some 0 ∧ (x = 'x' ∨ x = 'X') then
      match rest with
      | '_' :: rest => rest
      | rest => rest
    else zero :: x :: rest
  | word => word

/-- Reads a hexadecimal integer. -/
def hexInteger? (word : List Char) : Option Int :=
  let (negative, body) := splitSign (trimBlanks word)
  match spanDigits hexDigit? (dropHexMark body) with
  | (d :: digits, []) => some (withSign negative (ofDigits 16 (d :: digits)))
  | _ => none

/-- A number written in decimal: `mantissa * 10 ^ exponent`, with a sign, which a zero may have
too. -/
structure Decimal where
  negative : Bool
  mantissa : Nat
  exponent : Int
deriving DecidableEq, Repr

/-- The scalar nearest to a written number. -/
def Decimal.toScalar {α : Type} [Scalar α] (d : Decimal) : α :=
  let magnitude := Scalar.ofDecimal d.mantissa d.exponent
  if d.negative then -magnitude else magnitude

/-- The exponent at the end of a decimal number; nothing is a zero exponent. -/
def exponent? : List Char → Option Int
  | [] => some 0
  | c :: rest =>
    if c = 'e' ∨ c = 'E' then
      let (negative, body) := splitSign rest
      match spanDigits decimalDigit? body with
      | (d :: digits, []) => some (withSign negative (ofDigits 10 (d :: digits)))
      | _ => none
    else none

/-- Splits off a point and the digits after it. -/
def spanFraction : List Char → List Nat × List Char
  | '.' :: rest => spanDigits decimalDigit? rest
  | rest => ([], rest)

/-- Reads a decimal number. -/
def decimal? (word : List Char) : Option Decimal :=
  let (negative, body) := splitSign (trimBlanks word)
  let (whole, afterWhole) := spanDigits decimalDigit? body
  let (fraction, afterFraction) := spanFraction afterWhole
  if whole.isEmpty && fraction.isEmpty then none
  else (exponent? afterFraction).map fun exponent =>
    { negative, mantissa := ofDigits 10 (whole ++ fraction)
      exponent := exponent - fraction.length }

end CueCheck
