/-!
# Tokens of a level text

The first token of a text tells how the text goes on. Closing brackets, commas and bare words are
taken off the text with their token; openings and colons stay for whoever reads on.

* `nextToken_suffix`: what is left is a suffix of the text.
* `nextToken_lt`: a token that is taken off makes the text shorter.
-/

namespace CueCheck.LevelText

/-- White space between tokens. -/
def isSpace (c : Char) : Bool :=
  c == '\t' || c == '\n' || c == '\r' || c == ' '

/-- The end of a bare word. -/
def isWordBreak (c : Char) : Bool :=
  isSpace c || c == '\x7b' || c == '\x7d' || c == '[' || c == ']' || c == ':' || c == ',' ||
    c == '"'

/-- The beginning of a number. -/
def startsNumber (c : Char) : Bool :=
  c.isDigit || c == '-'

/-- What a value may begin with. -/
inductive Opening where
  | brace
  | bracket
  | quote
  | number
deriving DecidableEq, Repr

/-- A bare word that is a value: true, false or null. -/
inductive Literal where
  | true
  | false
  | null
deriving DecidableEq, Repr

/-- How a text goes on. -/
inductive Token where
  | finish
  | unknown
  | closeBrace
  | closeBracket
  | comma
  | literal (word : Literal)
  | colon
  | opening (kind : Opening)
deriving DecidableEq, Repr

/-- The token of a bare word. -/
def Token.ofWord (word : List Char) : Token :=
  if word = "true".toList then .literal .true
  else if word = "false".toList then .literal .false
  else if word = "null".toList then .literal .null
  else .unknown

/-- The bare word at the front of a text. -/
def takeWord (text : List Char) : List Char :=
  text.takeWhile (!isWordBreak ·)

/-- The text after its bare word. -/
def dropWord (text : List Char) : List Char :=
  text.dropWhile (!isWordBreak ·)

/-- The token of a text that begins with no white space, and the text that it leaves. -/
def tokenAt : List Char → Token × List Char
  | [] => (.finish, [])
  | c :: rest =>
    if c = '\x7d' then (.closeBrace, rest)
    else if c = ']' then (.closeBracket, rest)
    else if c = ',' then (.comma, rest)
    else if c = '\x7b' then (.opening .brace, c :: rest)
    else if c = '[' then (.opening .bracket, c :: rest)
    else if c = ':' then (.colon, c :: rest)
    else if c = '"' then (.opening .quote, c :: rest)
    else if startsNumber c then (.opening .number, c :: rest)
    else (.ofWord (c :: takeWord rest), dropWord rest)

/-- The next token of a text, and the text that it leaves. -/
def nextToken (text : List Char) : Token × List Char :=
  tokenAt (text.dropWhile isSpace)

/-- Tokens that stay in the text. -/
def Token.stays : Token → Bool
  | .colon | .opening _ => true
  | _ => false

theorem dropWord_suffix (text : List Char) : dropWord text <:+ text :=
  List.dropWhile_suffix _

theorem tokenAt_suffix (text : List Char) : (tokenAt text).2 <:+ text := by
  cases text with
  | nil => exact List.suffix_refl _
  | cons c rest =>
    have hr : rest <:+ c :: rest := List.suffix_cons c rest
    have hw : dropWord rest <:+ c :: rest := (dropWord_suffix rest).trans hr
    have hs : c :: rest <:+ c :: rest := List.suffix_refl _
    simp only [tokenAt]
    repeat' split
    all_goals assumption

theorem nextToken_suffix (text : List Char) : (nextToken text).2 <:+ text :=
  (tokenAt_suffix _).trans (List.dropWhile_suffix _)

/-- Where the text has a token that does not stay, the token is taken off. -/
theorem tokenAt_lt {text : List Char} (hne : text ≠ [])
    (ht : (tokenAt text).1.stays = false) : (tokenAt text).2.length < text.length := by
  cases text with
  | nil => exact absurd rfl hne
  | cons c rest =>
    have hw := (dropWord_suffix rest).length_le
    have hc : (c :: rest).length = rest.length + 1 := rfl
    revert ht
    simp only [tokenAt]
    repeat' split
    all_goals simp only [Token.stays, reduceCtorEq, false_imp_iff]
    all_goals intros; omega

/-- A token that is taken off makes the text shorter. -/
theorem nextToken_lt {text : List Char} (hf : (nextToken text).1 ≠ .finish)
    (ht : (nextToken text).1.stays = false) : (nextToken text).2.length < text.length := by
  have hle := (List.dropWhile_suffix isSpace (l := text)).length_le
  have hne : text.dropWhile isSpace ≠ [] := by
    intro h
    exact hf (by rw [nextToken, h]; rfl)
  exact Nat.lt_of_lt_of_le (tokenAt_lt hne ht) hle

end CueCheck.LevelText
