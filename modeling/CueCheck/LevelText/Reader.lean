import CueCheck.LevelText.Quoted
import CueCheck.LevelText.Token
import CueCheck.LevelText.Value

/-!
# Reading a level text

Level editors write a lenient notation: commas may be missing or left over, and strings may hold
line ends. Reading never fails; an object or array that cannot be read to its end is null, and what
follows is read as if it had ended there.

Each function takes the text that lies ahead and returns, beside a value, the text that it leaves.
The loops over the members of an object and the entries of an array go by passes (`Pass`): one pass
either ends the container or goes on with a strictly shorter text.

* `decode` reads a whole text, `Call` reads one value of a given kind where an earlier one ended.
* `Call.read_suffix`: whatever is read, the text left is a suffix of the text ahead.
-/

namespace CueCheck.LevelText

variable {α : Type} [Scalar α]

/-- What may be left of a text. -/
abbrev Rest (text : List Char) := { left : List Char // left <:+ text }

namespace Rest

/-- The whole text is left. -/
def all (text : List Char) : Rest text :=
  ⟨text, List.suffix_refl text⟩

/-- What is left of a suffix of a text is left of the text. -/
def within {inner text : List Char} (h : inner <:+ text) (rest : Rest inner) : Rest text :=
  ⟨rest.val, rest.property.trans h⟩

theorem length_le {text : List Char} (rest : Rest text) : rest.val.length ≤ text.length :=
  rest.property.length_le

end Rest

/-- One pass of the loop over a container: the end of the container with its value, or what has been
gathered up to now and a shorter text to go on with. -/
inductive Pass (α γ : Type) (text : List Char) where
  | done (value : Value α) (rest : Rest text)
  | more (gathered : γ) (rest : Rest text) (shorter : rest.val.length < text.length)

/-- The value of a bare word. -/
def Literal.value : Literal → Value α
  | .true => .bool Bool.true
  | .false => .bool Bool.false
  | .null => .null

/-- An integer that a level may hold; one outside 64 bits counts as zero. -/
def clampInteger (n : Int) : Int :=
  if Int64.minValue.toInt ≤ n ∧ n ≤ Int64.maxValue.toInt then n else 0

/-- The number that a word writes: a real one if there is a point in it, else an integer. A word
that writes no number counts as zero. -/
def numberOfWord (word : List Char) : Number α :=
  if '.' ∈ word then .real (((decimal? word).map Decimal.toScalar).getD Scalar.zero)
  else .whole (clampInteger ((integer? word).getD 0))

mutual

/-- Reads the value that begins with a character of the given kind; the text ahead is what follows
that character. -/
def readOpened (kind : Opening) (c : Char) (text : List Char) : Value α × Rest text :=
  match kind with
  | .brace => readMembers [] text
  | .bracket => readEntries [] text
  | .quote => (.text (readQuoted text).1, ⟨(readQuoted text).2, readQuoted_suffix text⟩)
  | .number => (.number (numberOfWord (c :: takeWord text)), ⟨dropWord text, dropWord_suffix text⟩)
termination_by 4 * text.length + 3

/-- Reads a value. A text that does not begin with one is null, and loses at most a closing bracket,
a comma or a word. -/
def readValue (text : List Char) : Value α × Rest text :=
  match h : nextToken text with
  | (.opening kind, c :: left) =>
    have hs : left <:+ text :=
      (List.suffix_cons c left).trans (by simpa [h] using nextToken_suffix text)
    have := hs.length_le
    have : left.length < text.length := by
      have := (nextToken_suffix text).length_le
      simp only [h, List.length_cons] at this
      omega
    let (value, rest) := readOpened kind c left
    (value, rest.within hs)
  | (.literal word, left) => (word.value, ⟨left, by simpa [h] using nextToken_suffix text⟩)
  | (_, left) => (.null, ⟨left, by simpa [h] using nextToken_suffix text⟩)
termination_by 4 * text.length

/-- One pass over the members of an object: a comma, or a key, a colon and a value. -/
def memberPass (members : Value.Members α) (text : List Char) : Pass α (Value.Members α) text :=
  have hs := nextToken_suffix text
  match h : nextToken text with
  | (.finish, left) => .done .null ⟨left, by simpa [h] using hs⟩
  | (.unknown, left) => .done .null ⟨left, by simpa [h] using hs⟩
  | (.closeBrace, left) => .done (.object members) ⟨left, by simpa [h] using hs⟩
  | (.comma, left) =>
    .more members ⟨left, by simpa [h] using hs⟩ (by
      have := @nextToken_lt text (by simp [h]) (by simp [h, Token.stays])
      simpa [h] using this)
  | (_, left) =>
    have hl : left <:+ text := by simpa [h] using hs
    have hk := (readString_suffix left).trans hl
    match hc : nextToken (readString left).2 with
    | (.colon, c :: afterColon) =>
      have hv : c :: afterColon <:+ text := by
        have := (nextToken_suffix (readString left).2).trans hk
        simpa [hc] using this
      have hlt : afterColon.length < text.length := by
        have := hv.length_le
        simp only [List.length_cons] at this
        omega
      let (value, rest) := readValue afterColon
      .more (Value.putMember (readString left).1 value members)
        (rest.within ((List.suffix_cons c afterColon).trans hv))
        (Nat.lt_of_le_of_lt rest.length_le hlt)
    | (_, afterKey) =>
      .done .null ⟨afterKey, by
        have := (nextToken_suffix (readString left).2).trans hk
        simpa [hc] using this⟩
termination_by 4 * text.length + 1

/-- Reads the members of an object up to its closing brace. -/
def readMembers (members : Value.Members α) (text : List Char) : Value α × Rest text :=
  match memberPass members text with
  | .done value rest => (value, rest)
  | .more members rest _ =>
    let (value, left) := readMembers members rest.val
    (value, left.within rest.property)
termination_by 4 * text.length + 2

/-- One pass over the entries of an array, which are gathered last first: a comma, a colon or a
value. A closing brace counts as a null. -/
def entryPass (entries : List (Value α)) (text : List Char) : Pass α (List (Value α)) text :=
  have hs := nextToken_suffix text
  match h : nextToken text with
  | (.finish, left) => .done .null ⟨left, by simpa [h] using hs⟩
  | (.unknown, left) => .done .null ⟨left, by simpa [h] using hs⟩
  | (.closeBracket, left) => .done (.array entries.reverse) ⟨left, by simpa [h] using hs⟩
  | (.comma, left) =>
    .more entries ⟨left, by simpa [h] using hs⟩ (by
      have := @nextToken_lt text (by simp [h]) (by simp [h, Token.stays])
      simpa [h] using this)
  | (.closeBrace, left) =>
    .more (.null :: entries) ⟨left, by simpa [h] using hs⟩ (by
      have := @nextToken_lt text (by simp [h]) (by simp [h, Token.stays])
      simpa [h] using this)
  | (.literal word, left) =>
    .more (word.value :: entries) ⟨left, by simpa [h] using hs⟩ (by
      have := @nextToken_lt text (by simp [h]) (by simp [h, Token.stays])
      simpa [h] using this)
  | (.colon, c :: left) =>
    have hl : c :: left <:+ text := by simpa [h] using hs
    .more entries ⟨left, (List.suffix_cons c left).trans hl⟩ (by
      have := hl.length_le
      simp only [List.length_cons] at this ⊢
      omega)
  | (.opening kind, c :: left) =>
    have hl : c :: left <:+ text := by simpa [h] using hs
    have hlt : left.length < text.length := by
      have := hl.length_le
      simp only [List.length_cons] at this
      omega
    let (value, rest) := readOpened kind c left
    .more (value :: entries) (rest.within ((List.suffix_cons c left).trans hl))
      (Nat.lt_of_le_of_lt rest.length_le hlt)
  | (_, left) => .done .null ⟨left, by simpa [h] using hs⟩
termination_by 4 * text.length + 1

/-- Reads the entries of an array up to its closing bracket. -/
def readEntries (entries : List (Value α)) (text : List Char) : Value α × Rest text :=
  match entryPass entries text with
  | .done value rest => (value, rest)
  | .more entries rest _ =>
    let (value, left) := readEntries entries rest.val
    (value, left.within rest.property)
termination_by 4 * text.length + 2

end

/-- A request to read one value where the text stands. All but `value` take it on trust that the
value is of their kind: they skip the first character as its opening, or read a bare word. -/
inductive Call where
  | value
  | object
  | array
  | string
  | number
deriving DecidableEq, Repr

/-- Reads one value, and leaves the rest of the text. -/
def Call.read (call : Call) (text : List Char) : Value α × Rest text :=
  match call with
  | .value => readValue text
  | .object =>
    let (read, rest) := readMembers [] (text.drop 1)
    (read, rest.within (List.drop_suffix 1 text))
  | .array =>
    let (read, rest) := readEntries [] (text.drop 1)
    (read, rest.within (List.drop_suffix 1 text))
  | .string => (.text (readString text).1, ⟨(readString text).2, readString_suffix text⟩)
  | .number => (.number (numberOfWord (takeWord text)), ⟨dropWord text, dropWord_suffix text⟩)

/-- The values that a series of calls reads, each where the one before it stopped. -/
def readAll : List Call → List Char → List (Value α)
  | [], _ => []
  | call :: calls, text =>
    let (value, rest) := call.read text
    value :: readAll calls rest.val

/-- The text without a byte-order mark at its front. -/
def dropMark : List Char → List Char
  | '\ufeff' :: rest => rest
  | text => text

/-- The value of a whole text; what follows it does not count. -/
def decode (text : List Char) : Value α :=
  (readValue (dropMark text)).1

theorem Call.read_suffix (call : Call) (text : List Char) :
    (call.read text : Value α × Rest text).2.val <:+ text :=
  (call.read text).2.property

end CueCheck.LevelText
