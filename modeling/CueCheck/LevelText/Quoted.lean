import CueCheck.Text.CodePoint
import CueCheck.Text.Numeral

/-!
# Quoted strings of a level text

A string runs to its closing quote, or to the end of the text; line ends may stand in it. A
backslash begins an escape: a short one, or `u` and four characters that number a code point in
hexadecimal. An escape that means nothing leaves nothing.

* `readQuoted_suffix`: what is left is a suffix of the text.
-/

namespace CueCheck.LevelText

/-- The code point of a short escape. -/
def shortEscape? (c : Char) : Option CodePoint :=
  if c = '"' ∨ c = '/' ∨ c = '\\' then some (.ofChar c)
  else if c = 'b' then some 0x08
  else if c = 'f' then some 0x0C
  else if c = 'n' then some 0x0A
  else if c = 'r' then some 0x0D
  else if c = 't' then some 0x09
  else none

/-- The code point that a hexadecimal number names. -/
def numberedCodePoint? (digits : List Char) : Option CodePoint :=
  (hexInteger? digits).bind CodePoint.ofInt?

/-- Puts what a character or escape stands for in front of the rest of a string. -/
def prependTo (front : Option CodePoint) (read : Text × List Char) : Text × List Char :=
  (front.toList ++ read.1, read.2)

/-- Reads a string after its opening quote, and its closing quote. -/
def readQuoted : List Char → Text × List Char
  | [] => ([], [])
  | '"' :: rest => ([], rest)
  | ['\\'] => ([], [])
  | '\\' :: 'u' :: a :: b :: c :: d :: rest =>
    prependTo (numberedCodePoint? [a, b, c, d]) (readQuoted rest)
  | '\\' :: 'u' :: few => ((numberedCodePoint? few).toList, [])
  | '\\' :: c :: rest => prependTo (shortEscape? c) (readQuoted rest)
  | c :: rest => prependTo (some (.ofChar c)) (readQuoted rest)

theorem readQuoted_suffix (text : List Char) : (readQuoted text).2 <:+ text := by
  fun_induction readQuoted text
  all_goals simp only [prependTo]
  case case1 => exact List.suffix_refl _
  case case2 => exact List.suffix_cons _ _
  case case3 => exact List.nil_suffix
  case case4 ih => exact ih.trans ⟨[_, _, _, _, _, _], rfl⟩
  case case5 => exact List.nil_suffix
  case case6 ih => exact ih.trans ⟨[_, _], rfl⟩
  case case7 ih => exact ih.trans (List.suffix_cons _ _)

/-- Reads a string from its opening quote on. -/
def readString (text : List Char) : Text × List Char :=
  readQuoted (text.drop 1)

theorem readString_suffix (text : List Char) : (readString text).2 <:+ text :=
  (readQuoted_suffix _).trans (List.drop_suffix 1 text)

end CueCheck.LevelText
