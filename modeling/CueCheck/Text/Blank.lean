/-!
# Blanks around numerals

The white space of Unicode that may stand before and after a numeral. Of the control characters
only the tab, the line ends, the vertical tab and the form feed are blank.

* `isBlank_of_isWhitespace`: what core calls white space is blank here.
-/

namespace CueCheck

/-- White space that may surround a numeral. -/
def isBlank (c : Char) : Bool :=
  let n := c.toNat
  (0x9 ≤ n && n ≤ 0xD) || n == 0x20 || n == 0x85 || n == 0xA0 || n == 0x1680 ||
    (0x2000 ≤ n && n ≤ 0x200A) || n == 0x2028 || n == 0x2029 || n == 0x202F || n == 0x205F ||
    n == 0x3000

theorem isBlank_of_isWhitespace {c : Char} (h : c.isWhitespace = true) : isBlank c = true := by
  simp only [Char.isWhitespace, Bool.or_eq_true, decide_eq_true_eq] at h
  rcases h with ((h | h) | h) | h <;> subst h <;> decide

/-- A word without the blanks at its ends. -/
def trimBlanks (word : List Char) : List Char :=
  ((word.dropWhile isBlank).reverse.dropWhile isBlank).reverse

end CueCheck
