import CueCheck.Proofs.LevelText.Reading
import CueCheck.Proofs.LevelText.Token

/-!
# Decoding undoes writing

Every rendering of a value is decoded to that value.

- **Between values**: gaps do not show (`membersAt_gap`, `entriesAt_gap`), and where a gap may be
  empty, no word goes on (`endsWord_of_writtenEntries`).
- **Values** (`valueAt_of_written`): a written value is read up to its end, whatever comes after it,
  by induction on the way in which it is written.
- **Whole texts** (`decode_written`).
-/

namespace CueCheck.LevelText

/-! ## Values -/

section Values

variable {α : Type} [Scalar α]

theorem valueAt_spaces {spaces : List Char} (h : IsSpaces spaces) (text : List Char) :
    (valueAt (spaces ++ text) : Value α × List Char) = valueAt text := by
  rw [valueAt_eq, nextToken_spaces h, ← valueAt_eq]

theorem valueAt_number {word after : List Char} (h : IsNumberWord word) (ends : EndsWord after) :
    (valueAt (word ++ after) : Value α × List Char) = (.number (numberOfWord word), after) := by
  rw [valueAt_eq, nextToken_number h]
  obtain ⟨c, rest, rfl⟩ := List.exists_cons_of_ne_nil h.nonempty
  have ⟨taken, dropped⟩ := takeWord_append
    (fun d (hd : d ∈ rest) => h.unbroken d (List.mem_cons_of_mem _ hd)) ends
  show openedAt .number c (rest ++ after) = _
  rw [openedAt_number, taken, dropped]

/-- A written value has a first character, which is no byte-order mark; that of a value that is no
bare word ends a word. -/
theorem exists_cons_of_written {value : Value α} {text : List Char} (h : Written value text) :
    ∃ c rest, text = c :: rest ∧ c ≠ '\ufeff' ∧ (IsBare value ∨ c ∈ wordBreaks) := by
  have number {c : Char} (hc : c.isDigit = true ∨ c = '-') : c ≠ '\ufeff' := by
    rintro rfl
    revert hc
    decide
  cases h with
  | null => exact ⟨_, _, rfl, by decide, .inl trivial⟩
  | true => exact ⟨_, _, rfl, by decide, .inl trivial⟩
  | false => exact ⟨_, _, rfl, by decide, .inl trivial⟩
  | whole integer =>
    cases integer with
    | plain numeral =>
      obtain ⟨c, rest, rfl⟩ := List.exists_cons_of_ne_nil numeral.nonempty
      exact ⟨c, rest, rfl, number (.inl (numeral.digit c List.mem_cons_self)), .inl trivial⟩
    | negative => exact ⟨_, _, rfl, by decide, .inl trivial⟩
  | real word =>
    obtain ⟨c, rest, rfl⟩ := List.exists_cons_of_ne_nil (List.ne_nil_of_mem word.point)
    exact ⟨c, rest, rfl, number (word.start c rfl), .inl trivial⟩
  | text => exact ⟨_, _, rfl, by decide, .inr (by decide)⟩
  | array => exact ⟨_, _, rfl, by decide, .inr (by decide)⟩
  | object => exact ⟨_, _, rfl, by decide, .inr (by decide)⟩

/-- The token where a value is written: that of its literal, or an opening. -/
theorem token_of_written {value : Value α} {text after : List Char} (h : Written value text)
    (ends : IsBare value → EndsWord after) :
    (∃ literal : Literal, value = literal.value ∧
      nextToken (text ++ after) = (.literal literal, after)) ∨
    ∃ kind, nextToken (text ++ after) = (.opening kind, text ++ after) := by
  cases h with
  | null => exact .inl ⟨.null, rfl, nextToken_literal .null (ends trivial)⟩
  | true => exact .inl ⟨.true, rfl, nextToken_literal .true (ends trivial)⟩
  | false => exact .inl ⟨.false, rfl, nextToken_literal .false (ends trivial)⟩
  | whole integer => exact .inr ⟨.number, nextToken_number (isNumberWord_of_integer integer) after⟩
  | real word => exact .inr ⟨.number, nextToken_number (isNumberWord_of_isRealWord word) after⟩
  | text => exact .inr ⟨.quote, rfl⟩
  | array => exact .inr ⟨.bracket, rfl⟩
  | object => exact .inr ⟨.brace, rfl⟩

/-- Within an array, what is written is read as anywhere. -/
theorem entriesAt_of_written {value : Value α} {text after : List Char} (h : Written value text)
    (ends : IsBare value → EndsWord after) (gathered : List (Value α)) :
    entriesAt gathered (text ++ after) =
      entriesAt ((valueAt (text ++ after)).1 :: gathered) (valueAt (α := α) (text ++ after)).2 := by
  obtain ⟨c, rest, rfl, -⟩ := exists_cons_of_written h
  rw [entriesAt_eq, valueAt_eq]
  rcases token_of_written h ends with ⟨literal, -, token⟩ | ⟨kind, token⟩
  · rw [token]
    rfl
  · rw [token]
    rfl

/-- Gaps between members do not show. -/
theorem membersAt_gap {gap : List Char} (h : IsGap gap) (gathered : Value.Members α)
    (after : List Char) : membersAt gathered (gap ++ after) = membersAt gathered after := by
  induction gap with
  | nil => rfl
  | cons c gap ih =>
    have rest := ih fun d hd => h d (List.mem_cons_of_mem _ hd)
    rw [← rest, List.cons_append, membersAt_eq]
    rcases isGap_cons (h c List.mem_cons_self) (gap ++ after) with token | token
    · rw [token, ← membersAt_eq]
    · rw [token]
      rfl

/-- Gaps between entries do not show. -/
theorem entriesAt_gap {gap : List Char} (h : IsGap gap) (gathered : List (Value α))
    (after : List Char) : entriesAt gathered (gap ++ after) = entriesAt gathered after := by
  induction gap with
  | nil => rfl
  | cons c gap ih =>
    have rest := ih fun d hd => h d (List.mem_cons_of_mem _ hd)
    rw [← rest, List.cons_append, entriesAt_eq]
    rcases isGap_cons (h c List.mem_cons_self) (gap ++ after) with token | token
    · rw [token, ← entriesAt_eq]
    · rw [token]
      rfl

omit [Scalar α] in
/-- A key that is new to an object comes last in it. -/
theorem putMember_of_notMem {key : Text} {members : Value.Members α}
    (h : key ∉ members.map (·.1)) (value : Value α) :
    Value.putMember key value members = members ++ [(key, value)] := by
  induction members with
  | nil => rfl
  | cons m rest ih =>
    obtain ⟨k, v⟩ := m
    simp only [List.map_cons, List.mem_cons, not_or] at h
    rw [Value.putMember, if_neg (Ne.symm h.1), ih h.2]
    rfl

/-- A key, its colon and its value are one more member. -/
theorem membersAt_key {key : Text} {name before : List Char} (string : WrittenString key name)
    (spaces : IsSpaces before) (gathered : Value.Members α) (behind : List Char) :
    membersAt gathered ('"' :: (name ++ '"' :: (before ++ ':' :: behind))) =
      membersAt (Value.putMember key (valueAt behind).1 gathered) (valueAt (α := α) behind).2 := by
  have token : nextToken ('"' :: (name ++ '"' :: (before ++ ':' :: behind))) =
      (.opening .quote, '"' :: (name ++ '"' :: (before ++ ':' :: behind))) := rfl
  have quoted : readString ('"' :: (name ++ '"' :: (before ++ ':' :: behind))) =
      (key, before ++ ':' :: behind) := readQuoted_written string
  have colon : nextToken (before ++ ':' :: behind) = (.colon, ':' :: behind) :=
    nextToken_spaces spaces
  rw [membersAt_eq]
  simp only [token, membersFrom, memberAt, quoted, colon]

/-- A word that has ended does not go on behind an entry. -/
theorem endsWord_of_writtenEntries {value : Value α} {gap rest after : List Char}
    {entries : List (Value α)} (behind : IsGap gap) (later : WrittenEntries entries rest)
    (apart : ∀ next ∈ entries.head?, IsBare value → IsBare next → gap ≠ []) (ends : EndsWord after)
    (bare : IsBare value) : EndsWord (gap ++ (rest ++ after)) := by
  refine endsWord_gap behind fun none => ?_
  cases later with
  | nil => exact ends
  | cons entry =>
    obtain ⟨c, more, rfl, -, breaks⟩ := exists_cons_of_written entry
    intro d hd
    cases hd
    exact breaks.resolve_left fun next => apart _ rfl bare next none

theorem entriesAt_close (gathered : List (Value α)) (after : List Char) :
    entriesAt gathered (']' :: after) = (.array gathered.reverse, after) := by
  rw [entriesAt_eq]
  rfl

theorem membersAt_close (gathered : Value.Members α) (after : List Char) :
    membersAt gathered ('\x7d' :: after) = (.object gathered, after) := by
  rw [membersAt_eq]
  rfl

theorem endsWord_bracket (after : List Char) : EndsWord (']' :: after) := by
  intro c hc
  cases hc
  decide

theorem endsWord_brace (after : List Char) : EndsWord ('\x7d' :: after) := by
  intro c hc
  cases hc
  decide

mutual

/-- A written value is read, up to its end. -/
theorem valueAt_of_written {value : Value α} {text : List Char} (h : Written value text)
    (after : List Char) (ends : IsBare value → EndsWord after) :
    valueAt (text ++ after) = (value, after) := by
  cases h with
  | null => rw [valueAt_eq, nextToken_literal .null (ends trivial)]; rfl
  | true => rw [valueAt_eq, nextToken_literal .true (ends trivial)]; rfl
  | false => rw [valueAt_eq, nextToken_literal .false (ends trivial)]; rfl
  | whole integer range =>
    rw [valueAt_number (isNumberWord_of_integer integer) (ends trivial),
      numberOfWord_integer integer range]
  | real word =>
    rw [valueAt_number (isNumberWord_of_isRealWord word) (ends trivial), numberOfWord_real word]
  | @text points text string =>
    rw [valueAt_eq]
    show openedAt .quote '"' (text ++ ['"'] ++ after) = _
    rw [openedAt_quote, List.append_assoc, List.singleton_append, readQuoted_written string]
  | @array entries gap text front inside =>
    rw [valueAt_eq]
    show openedAt .bracket '[' (gap ++ text ++ [']'] ++ after) = _
    rw [openedAt_bracket, List.append_assoc, List.append_assoc, entriesAt_gap front,
      List.singleton_append, entriesAt_of_writtenEntries inside [] fun _ => endsWord_bracket after,
      entriesAt_close, List.append_nil, List.reverse_reverse]
  | @object members gap text front keys inside =>
    rw [valueAt_eq]
    show openedAt .brace '\x7b' (gap ++ text ++ ['\x7d'] ++ after) = _
    rw [openedAt_brace, List.append_assoc, List.append_assoc, membersAt_gap front,
      List.singleton_append,
      membersAt_of_writtenMembers inside [] keys fun _ => endsWord_brace after, membersAt_close,
      List.nil_append]

/-- Written entries are gathered, and the loop goes on behind them. -/
theorem entriesAt_of_writtenEntries {entries : List (Value α)} {text after : List Char}
    (h : WrittenEntries entries text) (gathered : List (Value α))
    (ends : entries ≠ [] → EndsWord after) :
    entriesAt gathered (text ++ after) = entriesAt (entries.reverse ++ gathered) after := by
  cases h with
  | nil => rfl
  | @cons value text gap rest entries entry behind later apart =>
    have ends := ends (List.cons_ne_nil _ _)
    have apart := endsWord_of_writtenEntries behind later apart ends
    rw [List.append_assoc, List.append_assoc, entriesAt_of_written entry apart,
      valueAt_of_written entry _ apart, entriesAt_gap behind,
      entriesAt_of_writtenEntries later (value :: gathered) fun _ => ends, List.reverse_cons,
      List.append_assoc, List.singleton_append]

/-- Written members are gathered, and the loop goes on behind them. -/
theorem membersAt_of_writtenMembers {members : Value.Members α} {text after : List Char}
    (h : WrittenMembers members text) (gathered : Value.Members α)
    (keys : ((gathered ++ members).map (·.1)).Nodup) (ends : members ≠ [] → EndsWord after) :
    membersAt gathered (text ++ after) = membersAt (gathered ++ members) after := by
  cases h with
  | nil => rw [List.append_nil, List.nil_append]
  | @cons key value name before following text gap rest members string spaces spaces' member behind
      later =>
    have fresh : key ∉ gathered.map (·.1) := by
      rw [List.map_append, List.map_cons] at keys
      exact fun h => (List.nodup_append.mp keys).2.2 key h key List.mem_cons_self rfl
    have apart : IsBare value → EndsWord (gap ++ (rest ++ after)) := by
      refine fun _ => endsWord_gap behind fun _ => ?_
      cases later with
      | nil => exact ends (List.cons_ne_nil _ _)
      | cons =>
        intro c hc
        cases hc
        decide
    simp only [List.append_assoc, List.cons_append]
    rw [membersAt_key string spaces, valueAt_spaces spaces', valueAt_of_written member _ apart,
      membersAt_gap behind, putMember_of_notMem fresh,
      membersAt_of_writtenMembers later _ (by simpa using keys) fun _ =>
        ends (List.cons_ne_nil _ _),
      List.append_assoc]
    rfl

end

/-! ## Whole texts -/

/-- Decoding begins behind a mark and white space. -/
theorem decode_behind {mark spaces text : List Char} (marked : mark = [] ∨ mark = ['\ufeff'])
    (front : IsSpaces spaces) (plain : ∀ c ∈ text.head?, c ≠ '\ufeff') :
    decode (mark ++ spaces ++ text) = (valueAt text : Value α × List Char).1 := by
  have dropped : dropMark (mark ++ (spaces ++ text)) = spaces ++ text := by
    refine dropMark_mark marked fun c head => ?_
    cases spaces with
    | nil => exact plain c head
    | cons d spaces =>
      cases head
      rintro rfl
      exact absurd (front _ List.mem_cons_self) (by decide)
  show (valueAt (dropMark (mark ++ spaces ++ text))).1 = _
  rw [List.append_assoc, dropped, valueAt_spaces front]

theorem head_written {value : Value α} {text : List Char} (h : Written value text)
    (after : List Char) : ∀ c ∈ (text ++ after).head?, c ≠ '\ufeff' := by
  obtain ⟨c, rest, rfl, hc, -⟩ := exists_cons_of_written h
  intro d hd
  cases hd
  exact hc

/-- A text is decoded to the value written in it. -/
theorem decode_written {value : Value α} {mark spaces text : List Char}
    (marked : mark = [] ∨ mark = ['\ufeff']) (front : IsSpaces spaces) (h : Written value text) :
    decode (mark ++ spaces ++ text) = value := by
  have whole := valueAt_of_written h [] fun _ c hc => by cases hc
  rw [← List.append_nil text, decode_behind marked front (head_written h []), whole]

end Values

/-- An array of two bare words, a string with escapes and an object, in which a comma is missing and
others are left over. -/
theorem decode_written_mixed :
    (decode "\ufeff [-12 2.5\"\\u00e9\\n\"\x7b\"k\" :null,\x7d,\n]".toList : Value Rat) =
      .array [.number (.whole (-12)), .number (.real (5 / 2)), .text [0xE9, 0x0A],
        .object [([.ofChar 'k'], .null)]] := by
  have integer : Written (.number (.whole (-12)) : Value Rat) (Int.repr (-12)).toList :=
    .whole (writtenInteger_repr (by decide)) (by decide)
  have real : Written (.number (.real (5 / 2)) : Value Rat) "2.5".toList := by
    have read : (realOfWord "2.5".toList : Rat) = 5 / 2 := by decide +kernel
    rw [← read]
    exact .real ⟨fun c hc => by cases hc; decide, by decide, by decide⟩
  have string : WrittenString [0xE9, 0x0A]
      (['\\', 'u', '0', '0', 'e', '9'] ++ (['\\', 'n'] ++ [])) :=
    .cons (.numbered (w := 0) (x := 0) (y := 14) (z := 9) (by decide) (by decide) (by decide)
      (by decide) (by decide)) (.cons (.short (by decide)) .nil)
  have key : WrittenString [.ofChar 'k'] (['k'] ++ []) := .cons (.raw (by decide) (by decide)) .nil
  have members : WrittenMembers [([.ofChar 'k'], (.null : Value Rat))]
      ('"' :: (['k'] ++ []) ++ '"' :: [' '] ++ ':' :: [] ++ Literal.null.word ++ [','] ++ []) :=
    .cons key (by decide) (by decide) .null (by decide) .nil
  have object : Written (.object [([.ofChar 'k'], (.null : Value Rat))])
      "\x7b\"k\" :null,\x7d".toList := .object (by decide : IsGap []) (by decide) members
  have entries := WrittenEntries.cons integer (by decide : IsGap [' '])
    (.cons real (by decide : IsGap []) (.cons (.text string) (by decide : IsGap [])
      (.cons object (by decide : IsGap [',', '\n']) .nil nofun) (by simp [IsBare]))
      (by simp [IsBare])) (by simp)
  exact decode_written (.inr rfl) (by decide : IsSpaces [' '])
    (.array (by decide : IsGap []) entries)

end CueCheck.LevelText
