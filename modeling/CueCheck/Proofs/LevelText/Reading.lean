import CueCheck.LevelText.Reader

/-!
# Reading a level text, step by step

The readers return what is left of a text with a proof that it is left of that text. Without the
proofs, each of them is given by an equation in the next token.

- **Values** (`valueAt_eq`): a token opens a value, is one, or is none.
- **Containers** (`membersAt_eq`, `entriesAt_eq`): a token ends the container, is skipped, or begins
  a member or an entry, after which the loop goes on.
- **Byte-order marks** (`dropMark_of_ne`, `dropMark_mark`, `dropMark_append`): only the first
  character can be one.
-/

namespace CueCheck.LevelText

variable {α : Type} [Scalar α]

/-- A value and what is left, without the proof that it is left of the text. -/
def Rest.forget {text : List Char} (read : Value α × Rest text) : Value α × List Char :=
  (read.1, read.2.val)

/-- The value that stands at the front of a text, and what is left of the text. -/
def valueAt (text : List Char) : Value α × List Char :=
  Rest.forget (readValue text)

/-- The value that an opening begins, and what is left. -/
def openedAt (kind : Opening) (c : Char) (text : List Char) : Value α × List Char :=
  Rest.forget (readOpened kind c text)

/-- The object whose members were gathered up to here, and what is left. -/
def membersAt (members : Value.Members α) (text : List Char) : Value α × List Char :=
  Rest.forget (readMembers members text)

/-- The array whose entries were gathered up to here, and what is left. -/
def entriesAt (entries : List (Value α)) (text : List Char) : Value α × List Char :=
  Rest.forget (readEntries entries text)

theorem valueAt_suffix (text : List Char) : (valueAt text : Value α × List Char).2 <:+ text :=
  (readValue text).2.property

theorem openedAt_suffix (kind : Opening) (c : Char) (text : List Char) :
    (openedAt kind c text : Value α × List Char).2 <:+ text :=
  (readOpened kind c text).2.property

theorem openedAt_brace (c : Char) (text : List Char) :
    (openedAt .brace c text : Value α × List Char) = membersAt [] text := by
  unfold openedAt membersAt
  rw [readOpened]

theorem openedAt_bracket (c : Char) (text : List Char) :
    (openedAt .bracket c text : Value α × List Char) = entriesAt [] text := by
  unfold openedAt entriesAt
  rw [readOpened]

theorem openedAt_quote (c : Char) (text : List Char) :
    (openedAt .quote c text : Value α × List Char) =
      (.text (readQuoted text).1, (readQuoted text).2) := by
  unfold openedAt
  rw [readOpened]
  rfl

theorem openedAt_number (c : Char) (text : List Char) :
    (openedAt .number c text : Value α × List Char) =
      (.number (numberOfWord (c :: takeWord text)), dropWord text) := by
  unfold openedAt
  rw [readOpened]
  rfl

/-! ## Values -/

/-- How a value goes on from its token. -/
def valueFrom : Token × List Char → Value α × List Char
  | (.opening kind, c :: left) => openedAt kind c left
  | (.literal word, left) => (word.value, left)
  | (_, left) => (.null, left)

theorem valueAt_eq (text : List Char) :
    (valueAt text : Value α × List Char) = valueFrom (nextToken text) := by
  unfold valueAt
  rw [readValue]
  split <;> rename_i h <;> simp only [h, valueFrom] <;> rfl

/-! ## Containers -/

/-- How a loop goes on after a pass. -/
def Pass.andThen {γ : Type} {text : List Char} (pass : Pass α γ text)
    (loop : γ → List Char → Value α × List Char) : Value α × List Char :=
  match pass with
  | .done value rest => (value, rest.val)
  | .more gathered rest _ => loop gathered rest.val

theorem membersAt_eq_andThen (members : Value.Members α) (text : List Char) :
    membersAt members text = (memberPass members text).andThen membersAt := by
  unfold membersAt
  rw [readMembers]
  cases memberPass members text <;> rfl

theorem entriesAt_eq_andThen (entries : List (Value α)) (text : List Char) :
    entriesAt entries text = (entryPass entries text).andThen entriesAt := by
  unfold entriesAt
  rw [readEntries]
  cases entryPass entries text <;> rfl

/-- An object whose next member begins here: a key, a colon and a value. -/
def memberAt (members : Value.Members α) (text : List Char) : Value α × List Char :=
  match nextToken (readString text).2 with
  | (.colon, _ :: afterColon) =>
    membersAt (Value.putMember (readString text).1 (valueAt afterColon).1 members)
      (valueAt (α := α) afterColon).2
  | (_, afterKey) => (.null, afterKey)

/-- How an object goes on from a token. -/
def membersFrom (members : Value.Members α) : Token × List Char → Value α × List Char
  | (.finish, left) => (.null, left)
  | (.unknown, left) => (.null, left)
  | (.closeBrace, left) => (.object members, left)
  | (.comma, left) => membersAt members left
  | (_, left) => memberAt members left

/-- How an array goes on from a token. -/
def entriesFrom (entries : List (Value α)) : Token × List Char → Value α × List Char
  | (.finish, left) => (.null, left)
  | (.unknown, left) => (.null, left)
  | (.closeBracket, left) => (.array entries.reverse, left)
  | (.comma, left) => entriesAt entries left
  | (.closeBrace, left) => entriesAt (.null :: entries) left
  | (.literal word, left) => entriesAt (word.value :: entries) left
  | (.colon, _ :: left) => entriesAt entries left
  | (.opening kind, c :: left) =>
    entriesAt ((openedAt kind c left).1 :: entries) (openedAt (α := α) kind c left).2
  | (_, left) => (.null, left)

theorem membersAt_eq (members : Value.Members α) (text : List Char) :
    membersAt members text = membersFrom members (nextToken text) := by
  rw [membersAt_eq_andThen, memberPass]
  split
  case h_5 h =>
    simp only [h, membersFrom, memberAt]
    split <;> rename_i h' <;> simp only [h'] <;> rfl
  all_goals
    rename_i h
    simp only [h]
    rfl

theorem entriesAt_eq (entries : List (Value α)) (text : List Char) :
    entriesAt entries text = entriesFrom entries (nextToken text) := by
  rw [entriesAt_eq_andThen, entryPass]
  split <;> rename_i h <;> simp only [h, entriesFrom] <;> rfl

/-! ## Byte-order marks -/

theorem dropMark_of_ne {c : Char} (h : c ≠ '\ufeff') (rest : List Char) :
    dropMark (c :: rest) = c :: rest := by
  unfold dropMark
  split
  · rename_i e
    cases e
    exact absurd rfl h
  · rfl

/-- One mark is taken off. -/
theorem dropMark_mark {mark text : List Char} (marked : mark = [] ∨ mark = ['\ufeff'])
    (plain : ∀ c ∈ text.head?, c ≠ '\ufeff') : dropMark (mark ++ text) = text := by
  rcases marked with rfl | rfl
  · cases text with
    | nil => rfl
    | cons c text => exact dropMark_of_ne (plain c rfl) text
  · rfl

theorem dropMark_append {text : List Char} (h : text ≠ []) (more : List Char) :
    dropMark (text ++ more) = dropMark text ++ more := by
  obtain ⟨c, rest, rfl⟩ := List.exists_cons_of_ne_nil h
  by_cases hc : c = '\ufeff'
  · subst hc
    rfl
  · rw [dropMark_of_ne hc, List.cons_append, dropMark_of_ne hc]

end CueCheck.LevelText
