import CueCheck.LevelText.Reader
import CueCheck.Proofs.Text.Numeral

/-!
# How values are written

The notation of level texts as a relation: a value has many renderings, which differ in how its
strings are escaped and in what stands between its parts.

- **Strings** (`WrittenPoint`, `WrittenString`): each code point is written raw, by a short escape
  or by its number.
- **Numbers** (`WrittenInteger`, `IsRealWord`).
- **Values** (`Written`, `WrittenEntries`, `WrittenMembers`): entries and members are followed by
  gaps, which may be empty except between two bare words.
-/

namespace CueCheck.LevelText

/-! ## Gaps -/

/-- A run of white space. -/
def IsSpaces (spaces : List Char) : Prop :=
  ∀ c ∈ spaces, c ∈ ['\t', '\n', '\r', ' ']

/-- A run of white space and commas. -/
def IsGap (gap : List Char) : Prop :=
  ∀ c ∈ gap, c ∈ ['\t', '\n', '\r', ' ', ',']

-- The instances go through the lists: whether something holds of all characters can be decided too,
-- but by trying every one of them.
instance (spaces : List Char) : Decidable (IsSpaces spaces) :=
  List.decidableBAll _ spaces

instance (gap : List Char) : Decidable (IsGap gap) :=
  List.decidableBAll _ gap

/-- The characters that a bare word cannot have. -/
def wordBreaks : List Char :=
  ['\t', '\n', '\r', ' ', '\x7b', '\x7d', '[', ']', ':', ',', '"']

/-- No character of a word ends it. -/
def IsUnbroken (word : List Char) : Prop :=
  ∀ c ∈ word, c ∉ wordBreaks

instance (word : List Char) : Decidable (IsUnbroken word) :=
  List.decidableBAll _ word

/-- The bare word of a literal. -/
def Literal.word : Literal → List Char
  | .true => "true".toList
  | .false => "false".toList
  | .null => "null".toList

/-! ## Strings -/

/-- The characters of the short escapes, with the numbers of the code points that they stand for. -/
def shortEscapes : List (Char × Nat) :=
  [('"', 0x22), ('/', 0x2F), ('\\', 0x5C), ('b', 0x08), ('f', 0x0C), ('n', 0x0A), ('r', 0x0D),
    ('t', 0x09)]

/-- A character is the hexadecimal digit of a value, in either case. -/
def IsHexDigit (c : Char) (value : Fin 16) : Prop :=
  c ∈ ["0123456789abcdef".toList[value], "0123456789ABCDEF".toList[value]]

instance (c : Char) (value : Fin 16) : Decidable (IsHexDigit c value) :=
  inferInstanceAs (Decidable (c ∈ _))

/-- The ways to write a code point in a string. -/
inductive WrittenPoint : CodePoint → List Char → Prop where
  | raw {c : Char} (quote : c ≠ '"') (backslash : c ≠ '\\') : WrittenPoint (.ofChar c) [c]
  | short {c : Char} {p : CodePoint} (escape : (c, p.val) ∈ shortEscapes) : WrittenPoint p ['\\', c]
  | numbered {a b c d : Char} {w x y z : Fin 16} {p : CodePoint} (ha : IsHexDigit a w)
      (hb : IsHexDigit b x) (hc : IsHexDigit c y) (hd : IsHexDigit d z)
      (number : p.val = ((w.val * 16 + x) * 16 + y) * 16 + z) :
      WrittenPoint p ['\\', 'u', a, b, c, d]

/-- The ways to write a string, without its quotes. -/
inductive WrittenString : Text → List Char → Prop where
  | nil : WrittenString [] []
  | cons {p : CodePoint} {front : List Char} {points : Text} {text : List Char}
      (point : WrittenPoint p front) (rest : WrittenString points text) :
      WrittenString (p :: points) (front ++ text)

/-! ## Numbers -/

/-- An integer that 64 bits hold. -/
def IsInt64 (n : Int) : Prop :=
  -0x8000000000000000 ≤ n ∧ n ≤ 0x7FFFFFFFFFFFFFFF

instance (n : Int) : Decidable (IsInt64 n) :=
  inferInstanceAs (Decidable (_ ∧ _))

/-- Digits of ASCII, at least one and not too many to be read. -/
structure IsNumeral (digits : List Char) : Prop where
  nonempty : digits ≠ []
  digit : ∀ c ∈ digits, c.isDigit = true
  short : digits.length ≤ integerDigitLimit

/-- The ways to write an integer; leading zeros are allowed. -/
inductive WrittenInteger : Int → List Char → Prop where
  | plain {digits : List Char} (numeral : IsNumeral digits) :
      WrittenInteger (Nat.ofDigitChars 10 digits 0) digits
  | negative {digits : List Char} (numeral : IsNumeral digits) :
      WrittenInteger (-Nat.ofDigitChars 10 digits 0) ('-' :: digits)

/-- The usual numeral of an integer of 64 bits. -/
theorem writtenInteger_repr {n : Int} (range : IsInt64 n) :
    WrittenInteger n n.repr.toList := by
  unfold IsInt64 at range
  have numeral (m : Nat) (h : m ≤ 0x8000000000000000) : IsNumeral (Nat.toDigits 10 m) := by
    refine ⟨Nat.toDigits_ne_nil, fun c hc => ?_, ?_⟩
    · exact Nat.isDigit_of_mem_toDigits (by decide) (by decide) hc
    · have few : (Nat.toDigits 10 m).length ≤ 20 :=
        (Nat.length_toDigits_le_iff (by decide) (by decide)).mpr (by omega)
      exact Nat.le_trans few (by decide)
  have value (m : Nat) : Nat.ofDigitChars 10 (Nat.toDigits 10 m) 0 = m :=
    Nat.ofDigitChars_toDigits (by decide) (by decide)
  cases n with
  | ofNat m =>
    have written := WrittenInteger.plain (numeral m (by simp at range; omega))
    rw [value] at written
    have digits : (Int.ofNat m).repr.toList = Nat.toDigits 10 m := Nat.toList_repr
    rwa [digits]
  | negSucc m =>
    have written := WrittenInteger.negative (numeral (m + 1) (by omega))
    rw [value] at written
    have digits : (Int.negSucc m).repr.toList = '-' :: Nat.toDigits 10 (m + 1) := by
      show ("-" ++ (m + 1).repr).toList = _
      simp
    rwa [digits]

/-- A bare word with a point that begins like a number. -/
structure IsRealWord (word : List Char) : Prop where
  start : ∀ c ∈ word.head?, c.isDigit = true ∨ c = '-'
  point : '.' ∈ word
  unbroken : IsUnbroken word

/-- The real number of a word: the one that it writes, or zero if it writes none. -/
def realOfWord {α : Type} [Scalar α] (word : List Char) : α :=
  ((decimal? word).map Decimal.toScalar).getD Scalar.zero

/-! ## Values -/

section Values

variable {α : Type} [Scalar α]

/-- A value that is written as a bare word. -/
def IsBare : Value α → Prop
  | .null | .bool _ | .number _ => True
  | .text _ | .array _ | .object _ => False

mutual

/-- The ways to write a value. -/
inductive Written : Value α → List Char → Prop where
  | null : Written .null Literal.null.word
  | true : Written (.bool Bool.true) Literal.true.word
  | false : Written (.bool Bool.false) Literal.false.word
  | whole {n : Int} {word : List Char} (integer : WrittenInteger n word)
      (range : IsInt64 n) : Written (.number (.whole n)) word
  | real {word : List Char} (real : IsRealWord word) :
      Written (.number (.real (realOfWord word))) word
  | text {points : Text} {text : List Char} (string : WrittenString points text) :
      Written (.text points) ('"' :: text ++ ['"'])
  | array {entries : List (Value α)} {gap text : List Char} (front : IsGap gap)
      (inside : WrittenEntries entries text) :
      Written (.array entries) ('[' :: gap ++ text ++ [']'])
  | object {members : Value.Members α} {gap text : List Char} (front : IsGap gap)
      (keys : (members.map (·.1)).Nodup) (inside : WrittenMembers members text) :
      Written (.object members) ('\x7b' :: gap ++ text ++ ['\x7d'])

/-- The ways to write entries, each with a gap after it. Between two bare words it is not empty. -/
inductive WrittenEntries : List (Value α) → List Char → Prop where
  | nil : WrittenEntries [] []
  | cons {value : Value α} {text gap rest : List Char} {entries : List (Value α)}
      (entry : Written value text) (behind : IsGap gap) (later : WrittenEntries entries rest)
      (apart : ∀ next ∈ entries.head?, IsBare value → IsBare next → gap ≠ []) :
      WrittenEntries (value :: entries) (text ++ gap ++ rest)

/-- The ways to write members, each with a gap after it. -/
inductive WrittenMembers : Value.Members α → List Char → Prop where
  | nil : WrittenMembers [] []
  | cons {key : Text} {value : Value α} {name before after text gap rest : List Char}
      {members : Value.Members α} (string : WrittenString key name) (beforeColon : IsSpaces before)
      (afterColon : IsSpaces after) (member : Written value text) (behind : IsGap gap)
      (later : WrittenMembers members rest) :
      WrittenMembers ((key, value) :: members)
        ('"' :: name ++ '"' :: before ++ ':' :: after ++ text ++ gap ++ rest)

end

end Values

end CueCheck.LevelText
