import CueCheck.Proofs.LevelText.Decoding
import Mathlib

/-!
# Damage in an array

A word that no reader knows makes the array null in which it stands. The reader then goes on right
behind the word, as if the array had ended there, and what is left of the array falls to the
containers around it.

- **Stray words** (`IsStrayWord`): bare words that are no value.
- **Surroundings** (`Slot`, `Frame`): what stands around a value in its container, and how that is
  written. What is read alike is read alike in all surroundings (`readsAs_within`), and a value that
  stands whole is decoded where it stands (`decode_plug`).
- **Arrays around arrays** (`spill`, `spill_eq_plug_iff`): each takes the entries that were left
  of the one inside it, and leaves its own. No entry is misplaced only if all of them were left
  with the same.
- **Objects around arrays** (`goOnIn_object`): an object takes what was left for a key.
- **The result** (`decode_damaged`).
-/

namespace CueCheck.LevelText

/-! ## Stray words -/

section Words

variable {word after : List Char}

/-- A bare word that is neither a number nor true, false or null. -/
structure IsStrayWord (word : List Char) : Prop where
  nonempty : word ≠ []
  unbroken : IsUnbroken word
  start : ∀ c ∈ word.head?, startsNumber c = false
  unknown : ∀ literal : Literal, word ≠ literal.word

/-- Any other word of letters is stray. -/
theorem isStrayWord_of_isAlpha (nonempty : word ≠ []) (letters : ∀ c ∈ word, c.isAlpha = true)
    (unknown : ∀ literal : Literal, word ≠ literal.word) : IsStrayWord word where
  nonempty := nonempty
  unbroken c mem breaks := by
    have none : (wordBreaks.all (!·.isAlpha)) = true := by decide
    have := List.all_eq_true.mp none c breaks
    simp [letters c mem] at this
  start c head := by
    have alpha := letters c (List.mem_of_mem_head? head)
    rw [← Bool.not_eq_true, startsNumber_iff]
    rintro (digit | rfl)
    · simp only [Char.isAlpha, Char.isUpper, Char.isLower, Char.isDigit, Bool.or_eq_true,
        Bool.and_eq_true, decide_eq_true_eq, ge_iff_le, UInt32.le_iff_toNat_le] at alpha digit
      simp at alpha digit
      omega
    · exact absurd alpha (by decide)
  unknown := unknown

theorem nextToken_stray (h : IsStrayWord word) (ends : EndsWord after) :
    nextToken (word ++ after) = (.unknown, after) := by
  obtain ⟨c, rest, rfl⟩ := List.exists_cons_of_ne_nil h.nonempty
  have ⟨taken, dropped⟩ := takeWord_append
    (fun d (hd : d ∈ rest) => h.unbroken d (List.mem_cons_of_mem _ hd)) ends
  have token : Token.ofWord (c :: rest) = .unknown := by
    have other (literal : Literal) : ¬c :: rest = literal.word := h.unknown literal
    exact (if_neg (other .true)).trans ((if_neg (other .false)).trans (if_neg (other .null)))
  rw [List.cons_append, nextToken_word (h.unbroken c List.mem_cons_self),
    if_neg (by simp [h.start c rfl]), taken, dropped, token]

end Words

/-! ## Surroundings -/

section Surroundings

variable {α : Type} [Scalar α]

/-- What an array holds in front of a place in it, and behind the place. -/
structure Slot (α : Type) where
  before : List (Value α)
  behind : List (Value α)

/-- What stands around a value in its container. -/
inductive Frame (α : Type) where
  | entry (slot : Slot α)
  | member (before : Value.Members α) (key : Text) (behind : Value.Members α)

/-- The container with the value in it. -/
def Frame.fill : Frame α → Value α → Value α
  | entry slot, value => .array (slot.before ++ value :: slot.behind)
  | member before key behind, value => .object (before ++ (key, value) :: behind)

/-- The container is an object. -/
def Frame.IsObject : Frame α → Prop
  | .entry _ => False
  | .member .. => True

/-- The whole tree, with the value inside containers that are listed from the inside out. -/
def plug (frames : List (Frame α)) (value : Value α) : Value α :=
  frames.foldl (fun value frame => frame.fill value) value

/-- A gap next to a place that is taken: it has a comma if anything stands on its other side. -/
structure IsSeparator {β : Type} (side : List β) (between : List Char) : Prop where
  gap : IsGap between
  comma : side ≠ [] → ',' ∈ between

/-- How an array is written around a place: from its opening bracket up to the place, and from the
place on. -/
inductive WrittenSlot : Slot α → List Char → List Char → Prop where
  | mk {before behind : List (Value α)} {front earlier left right later : List Char}
      (gap : IsGap front) (entries : WrittenEntries before earlier)
      (apart : IsSeparator before left) (apart' : IsSeparator behind right)
      (entries' : WrittenEntries behind later) :
      WrittenSlot ⟨before, behind⟩ (front ++ (earlier ++ left)) (right ++ (later ++ [']']))

/-- How a container is written around a value: up to the value, and behind it. -/
inductive WrittenFrame : Frame α → List Char → List Char → Prop where
  | entry {slot : Slot α} {opening closing : List Char} (array : WrittenSlot slot opening closing) :
      WrittenFrame (.entry slot) ('[' :: opening) closing
  | member {before behind : Value.Members α} {key : Text}
      {front earlier left name spaces spaces' right later : List Char} (gap : IsGap front)
      (members : WrittenMembers before earlier) (apart : IsSeparator before left)
      (string : WrittenString key name) (beforeColon : IsSpaces spaces)
      (afterColon : IsSpaces spaces') (apart' : IsSeparator behind right)
      (members' : WrittenMembers behind later)
      (keys : (before.map (·.1) ++ key :: behind.map (·.1)).Nodup) :
      WrittenFrame (.member before key behind)
        ('\x7b' :: (front ++ (earlier ++ (left ++
          '"' :: (name ++ '"' :: (spaces ++ ':' :: spaces'))))))
        (right ++ (later ++ ['\x7d']))

/-- How containers are written around a value, from the inside out. -/
inductive WrittenFrames : List (Frame α) → List Char → List Char → Prop where
  | nil : WrittenFrames [] [] []
  | cons {frame : Frame α} {frames : List (Frame α)} {opening closing front back : List Char}
      (inner : WrittenFrame frame opening closing) (outer : WrittenFrames frames front back) :
      WrittenFrames (frame :: frames) (front ++ opening) (closing ++ back)

/-! ## Reading in a container -/

/-- The value at the front of a text, which is read as an entry of an array too. -/
structure ReadsAs (text : List Char) (value : Value α) (left : List Char) : Prop where
  alone : valueAt text = (value, left)
  entry : ∀ gathered, entriesAt gathered text = entriesAt (value :: gathered) left

theorem readsAs_of_opening {text : List Char} {kind : Opening} {c : Char} {left : List Char}
    (token : nextToken text = (.opening kind, c :: left)) :
    ReadsAs text (openedAt (α := α) kind c left).1 (openedAt (α := α) kind c left).2 := by
  refine ⟨?_, fun gathered => ?_⟩
  · rw [valueAt_eq, token]
    rfl
  · rw [entriesAt_eq, token]
    rfl

theorem readsAs_bracket (text : List Char) :
    ReadsAs ('[' :: text) (entriesAt (α := α) [] text).1 (entriesAt (α := α) [] text).2 := by
  have read := readsAs_of_opening (α := α) (rfl : nextToken ('[' :: text) = (.opening .bracket, _))
  rwa [openedAt_bracket] at read

theorem readsAs_brace (text : List Char) :
    ReadsAs ('\x7b' :: text) (membersAt (α := α) [] text).1 (membersAt (α := α) [] text).2 := by
  have read := readsAs_of_opening (α := α) (rfl : nextToken ('\x7b' :: text) = (.opening .brace, _))
  rwa [openedAt_brace] at read

theorem readsAs_written {value : Value α} {text after : List Char} (h : Written value text)
    (ends : IsBare value → EndsWord after) : ReadsAs (text ++ after) value after := by
  have whole := valueAt_of_written h after ends
  exact ⟨whole, fun gathered => by rw [entriesAt_of_written h ends, whole]⟩

omit [Scalar α] in
theorem IsSeparator.endsWord {β : Type} {side : List β} {between after : List Char}
    (h : IsSeparator side between) (taken : side ≠ []) : EndsWord (between ++ after) := by
  refine endsWord_gap h.gap fun none => ?_
  have comma := h.comma taken
  rw [none] at comma
  cases comma

/-- An array is read up to a place in it. -/
theorem entriesAt_opening {slot : Slot α} {opening closing : List Char}
    (h : WrittenSlot slot opening closing) (text : List Char) :
    entriesAt [] (opening ++ text) = entriesAt slot.before.reverse text := by
  obtain ⟨gap, entries, apart, -, -⟩ := h
  rw [List.append_assoc, List.append_assoc, entriesAt_gap gap,
    entriesAt_of_writtenEntries entries [] apart.endsWord, entriesAt_gap apart.gap, List.append_nil]

/-- From a place in it on, an array is read to its end. -/
theorem entriesAt_closing {slot : Slot α} {opening closing : List Char}
    (h : WrittenSlot slot opening closing) (gathered : List (Value α)) (after : List Char) :
    entriesAt gathered (closing ++ after) = (.array (gathered.reverse ++ slot.behind), after) := by
  obtain ⟨-, -, -, apart, entries⟩ := h
  rw [List.append_assoc, List.append_assoc, List.singleton_append, entriesAt_gap apart.gap,
    entriesAt_of_writtenEntries entries _ fun _ => endsWord_bracket after, entriesAt_close,
    List.reverse_append, List.reverse_reverse]

/-- What an array has left ends a word. -/
theorem endsWord_closing {slot : Slot α} {opening closing : List Char}
    (h : WrittenSlot slot opening closing) (after : List Char) : EndsWord (closing ++ after) := by
  obtain ⟨-, -, -, apart, entries⟩ := h
  rw [List.append_assoc, List.append_assoc]
  cases entries with
  | nil => exact endsWord_gap apart.gap fun _ => endsWord_bracket after
  | cons => exact apart.endsWord (List.cons_ne_nil _ _)

/-- An array with a stray word in it is null, and what follows the word is left. -/
theorem readsAs_damaged {slot : Slot α} {opening closing word : List Char}
    (h : WrittenSlot slot opening closing) (stray : IsStrayWord word) (after : List Char) :
    ReadsAs ('[' :: (opening ++ (word ++ (closing ++ after)))) (.null : Value α)
      (closing ++ after) := by
  have read := readsAs_bracket (α := α) (opening ++ (word ++ (closing ++ after)))
  rwa [entriesAt_opening h, entriesAt_eq, nextToken_stray stray (endsWord_closing h after)] at read

/-- How a container goes on behind a value in it. -/
def Frame.goOn : Frame α → Value α → List Char → Value α × List Char
  | .entry slot, value, left => entriesAt (value :: slot.before.reverse) left
  | .member before key _, value, left => membersAt (before ++ [(key, value)]) left

/-- How the containers around a value go on behind it, from the inside out. -/
def goOnIn : List (Frame α) → Value α → List Char → Value α × List Char
  | [], value, left => (value, left)
  | frame :: frames, value, left =>
    goOnIn frames (frame.goOn value left).1 (frame.goOn value left).2

theorem readsAs_in {frame : Frame α} {opening closing text left : List Char} {value : Value α}
    (h : WrittenFrame frame opening closing) (read : ReadsAs text value left) :
    ReadsAs (opening ++ text) (frame.goOn value left).1 (frame.goOn value left).2 := by
  cases h with
  | @entry slot opening _ array =>
    have whole := readsAs_bracket (α := α) (opening ++ text)
    rwa [entriesAt_opening array, read.entry] at whole
  | @member before behind key front earlier separator name spaces spaces' right later gap members
      apart string beforeColon afterColon _ _ keys =>
    have distinct : (before.map (·.1)).Nodup := (List.nodup_append.mp keys).1
    have fresh : key ∉ before.map (·.1) := fun mem =>
      (List.nodup_append.mp keys).2.2 key mem key List.mem_cons_self rfl
    simp only [List.cons_append, List.append_assoc]
    have whole := readsAs_brace (α := α) (front ++ (earlier ++ (separator ++
      '"' :: (name ++ '"' :: (spaces ++ ':' :: (spaces' ++ text))))))
    rwa [membersAt_gap gap, membersAt_of_writtenMembers members [] distinct apart.endsWord,
      membersAt_gap apart.gap, List.nil_append, membersAt_key string beforeColon,
      valueAt_spaces afterColon, read.alone, putMember_of_notMem fresh] at whole

/-- Within containers, a text is read as it is read alone. -/
theorem readsAs_within {frames : List (Frame α)} {front back text left : List Char}
    {value : Value α} (h : WrittenFrames frames front back) (read : ReadsAs text value left) :
    ReadsAs (front ++ text) (goOnIn frames value left).1 (goOnIn frames value left).2 := by
  induction h generalizing text left value with
  | nil => exact read
  | cons inner _ ih =>
    rw [List.append_assoc]
    exact ih (readsAs_in inner read)

/-- A container goes on behind a value to its own end. -/
theorem Frame.goOn_closing {frame : Frame α} {opening closing : List Char}
    (h : WrittenFrame frame opening closing) (value : Value α) (after : List Char) :
    frame.goOn value (closing ++ after) = (frame.fill value, after) := by
  cases h with
  | entry array => simp [goOn, fill, entriesAt_closing array]
  | @member before behind key _ _ _ _ _ _ right later _ _ _ _ _ _ apart members keys =>
    have distinct : ((before ++ [(key, value)] ++ behind).map (·.1)).Nodup := by simpa using keys
    have read := membersAt_of_writtenMembers members (before ++ [(key, value)]) distinct
      fun _ => endsWord_brace after
    rw [List.append_assoc, List.append_assoc, List.singleton_append, goOn, membersAt_gap apart.gap,
      read, membersAt_close, fill, List.append_assoc, List.singleton_append]

/-- Behind a whole value, the containers around it are read to their ends. -/
theorem goOnIn_back {frames : List (Frame α)} {front back : List Char}
    (h : WrittenFrames frames front back) (value : Value α) (after : List Char) :
    goOnIn frames value (back ++ after) = (plug frames value, after) := by
  induction h generalizing value with
  | nil => rfl
  | cons inner _ ih =>
    rw [goOnIn, List.append_assoc, Frame.goOn_closing inner, ih]
    rfl

/-- Where an array has a stray word in it, the containers around it go on behind the word. -/
theorem readsAs_around {slot : Slot α} {opening closing word front back : List Char}
    {frames : List (Frame α)} (array : WrittenSlot slot opening closing) (stray : IsStrayWord word)
    (around : WrittenFrames frames front back) (after : List Char) :
    valueAt (front ++ '[' :: (opening ++ (word ++ (closing ++ after)))) =
      goOnIn frames .null (closing ++ after) :=
  (readsAs_within around (readsAs_damaged array stray after)).alone

theorem head_front {frames : List (Frame α)} {front back text : List Char}
    (h : WrittenFrames frames front back) (plain : ∀ c ∈ text.head?, c ≠ '\ufeff') :
    ∀ c ∈ (front ++ text).head?, c ≠ '\ufeff' := by
  induction h generalizing text with
  | nil => exact plain
  | cons inner _ ih =>
    rw [List.append_assoc]
    refine ih ?_
    cases inner <;> intro c head <;> cases head <;> decide

/-- A text in which a value stands whole is decoded to the tree with the value in it. -/
theorem decode_plug {mark spaces front back text : List Char} {frames : List (Frame α)}
    {value : Value α} (marked : mark = [] ∨ mark = ['\ufeff']) (space : IsSpaces spaces)
    (around : WrittenFrames frames front back) (h : Written value text)
    {after : List Char} (ends : IsBare value → EndsWord (back ++ after)) :
    decode (mark ++ spaces ++ (front ++ (text ++ (back ++ after)))) = plug frames value := by
  rw [decode_behind marked space (head_front around (head_written h _)),
    (readsAs_within around (readsAs_written h ends)).alone, goOnIn_back around]

/-! ## Arrays around arrays -/

/-- What becomes of arrays around a value when each takes the entries that the one inside it has
left, in place of its own. -/
def spill : List (Value α) → List (Slot α) → Value α → Value α
  | _, [], value => value
  | left, slot :: slots, value => spill slot.behind slots (.array (slot.before ++ value :: left))

theorem goOnIn_slots {slots : List (Slot α)} {front back : List Char}
    (h : WrittenFrames (slots.map .entry) front back) {slot : Slot α} {opening closing : List Char}
    (array : WrittenSlot slot opening closing) (value : Value α) (after : List Char) :
    (goOnIn (slots.map .entry) value (closing ++ (back ++ after))).1 =
      spill slot.behind slots value := by
  induction slots generalizing front back slot opening closing value with
  | nil => rfl
  | cons outer slots ih =>
    cases h with
    | cons inner around =>
      cases inner with
      | entry next =>
        have taken := entriesAt_closing array (value :: outer.before.reverse)
        simp only [List.map_cons, goOnIn, Frame.goOn, List.append_assoc, taken]
        rw [ih around next, spill]
        simp

omit [Scalar α] in
/-- A tree tells which value is in it. -/
theorem eq_of_spill_eq_plug {slots : List (Slot α)} {left : List (Value α)} {value other : Value α}
    (h : spill left slots value = plug (slots.map .entry) other) : value = other := by
  induction slots generalizing left value other with
  | nil => exact h
  | cons slot slots ih =>
    have same := Value.array.inj (ih h)
    exact (List.cons.inj (List.append_cancel_left same)).1

omit [Scalar α] in
/-- Every array keeps its own entries only if all of them have the same ones left. -/
theorem spill_eq_plug_iff {slots : List (Slot α)} {left : List (Value α)} {value : Value α} :
    spill left slots value = plug (slots.map .entry) value ↔
      ∀ slot ∈ slots, slot.behind = left := by
  induction slots generalizing left value with
  | nil => exact iff_of_true rfl (by simp)
  | cons slot slots ih =>
    constructor
    · intro h
      have same : Value.array (slot.before ++ value :: left) = .array _ := eq_of_spill_eq_plug h
      have here : left = slot.behind :=
        (List.cons.inj (List.append_cancel_left (Value.array.inj same))).2
      subst here
      exact List.forall_mem_cons.mpr ⟨rfl, ih.mp h⟩
    · intro h
      obtain ⟨here, later⟩ := List.forall_mem_cons.mp h
      subst here
      exact ih.mpr later

/-! ## Objects around arrays -/

omit [Scalar α] in
/-- A tree of containers is not null. -/
theorem plug_ne_null {frames : List (Frame α)} (h : frames ≠ []) (value : Value α) :
    plug frames value ≠ .null := by
  obtain ⟨inner, outermost, rfl⟩ := (List.eq_nil_or_concat' frames).resolve_left h
  rw [plug, List.foldl_concat]
  cases outermost <;> simp [Frame.fill]

theorem readQuoted_of_notMem {text : List Char} (h : '"' ∉ text) : (readQuoted text).2 = [] := by
  fun_induction readQuoted text with
  | case1 => rfl
  | case2 rest => exact absurd List.mem_cons_self h
  | case3 => rfl
  | case4 a b c d rest ih => exact ih fun mem => h (by simp [mem])
  | case5 few => rfl
  | case6 c rest _ _ ih => exact ih fun mem => h (by simp [mem])
  | case7 c rest _ _ _ _ _ ih => exact ih fun mem => h (by simp [mem])

/-- A key that no quote ends takes the rest of the text. -/
theorem memberAt_of_notMem {text : List Char} (h : '"' ∉ text) (gathered : Value.Members α) :
    memberAt gathered text = (.null, []) := by
  have rest : (readString text).2 = [] :=
    readQuoted_of_notMem fun mem => h (List.mem_of_mem_drop mem)
  unfold memberAt
  rw [rest]
  rfl

/-- For an object, what an array has left begins with a key. -/
theorem membersAt_closing {slot : Slot α} {opening closing : List Char}
    (h : WrittenSlot slot opening closing) {after : List Char} (quotes : '"' ∉ closing ++ after)
    (gathered : Value.Members α) : membersAt gathered (closing ++ after) = (.null, []) := by
  obtain ⟨-, -, -, apart, entries⟩ := h
  rw [List.append_assoc, List.append_assoc] at quotes ⊢
  rw [membersAt_gap apart.gap, membersAt_eq]
  have within : '"' ∉ _ := fun mem => quotes (List.mem_append_right _ mem)
  cases entries with
  | nil => exact memberAt_of_notMem (fun mem => within (List.mem_cons_of_mem _ mem)) gathered
  | cons entry gap later distant =>
    have ends := endsWord_of_writtenEntries gap later distant (endsWord_bracket after)
    rw [List.append_assoc, List.append_assoc] at within ⊢
    rcases token_of_written entry ends with ⟨literal, -, token⟩ | ⟨kind, token⟩
    · rw [List.singleton_append, token]
      exact memberAt_of_notMem (fun mem => within (List.mem_append_right _ mem)) gathered
    · rw [List.singleton_append, token]
      exact memberAt_of_notMem within gathered

theorem Frame.goOn_nil (frame : Frame α) (value : Value α) : frame.goOn value [] = (.null, []) := by
  cases frame with
  | entry => exact entriesAt_eq _ []
  | member => exact membersAt_eq _ []

theorem goOnIn_nil (frames : List (Frame α)) : goOnIn frames .null [] = (.null, []) := by
  induction frames with
  | nil => rfl
  | cons frame frames ih => rw [goOnIn, frame.goOn_nil, ih]

/-- Inside an object, a damaged array leaves nothing whole if no key follows. -/
theorem goOnIn_object {frames : List (Frame α)} {front back : List Char}
    (h : WrittenFrames frames front back) {frame : Frame α} (mem : frame ∈ frames)
    (object : frame.IsObject) {slot : Slot α} {opening closing : List Char}
    (array : WrittenSlot slot opening closing) {after : List Char}
    (quotes : '"' ∉ closing ++ (back ++ after)) (value : Value α) :
    goOnIn frames value (closing ++ (back ++ after)) = (.null, []) := by
  induction h generalizing slot opening closing value with
  | nil => cases mem
  | @cons inner frames _ closing' _ back written around ih =>
    cases written with
    | entry next =>
      rw [goOnIn, Frame.goOn, entriesAt_closing array, List.append_assoc]
      have outer : frame ∈ frames := by
        refine (List.mem_cons.mp mem).resolve_left ?_
        rintro rfl
        exact object
      have fewer : '"' ∉ closing' ++ (back ++ after) := fun inside =>
        quotes (List.mem_append_right _ (by rwa [List.append_assoc]))
      exact ih outer next fewer _
    | member => rw [goOnIn, Frame.goOn, membersAt_closing array quotes, goOnIn_nil]

/-! ## Damaged texts -/

/-- In a text, the containers around a damaged array go on behind the stray word. -/
theorem decode_around {mark spaces front back opening closing word after : List Char}
    {slot : Slot α} {frames : List (Frame α)} (marked : mark = [] ∨ mark = ['\ufeff'])
    (space : IsSpaces spaces) (around : WrittenFrames frames front back)
    (array : WrittenSlot slot opening closing) (stray : IsStrayWord word) :
    decode
        (mark ++ spaces ++ (front ++ '[' :: (opening ++ (word ++ (closing ++ (back ++ after)))))) =
      (goOnIn frames (.null : Value α) (closing ++ (back ++ after))).1 := by
  have plain : ∀ c ∈ ('[' :: (opening ++ (word ++ (closing ++ (back ++ after))))).head?,
      c ≠ '\ufeff' := by
    intro c head
    cases head
    decide
  rw [decode_behind marked space (head_front around plain), readsAs_around array stray around]

/-- A stray word in an array of a text. The text is decoded as if null stood in place of the array's
front, up to the word and with it, so that the array's closing bracket is left over.

- Arrays around the damaged one take one another's entries, so that all entries are in place just if
  every array has the same entries left.
- An object around it is lost, and everything around the object, if no key follows. -/
theorem decode_damaged {mark spaces front back opening closing word text : List Char}
    {slot : Slot α} {frames : List (Frame α)} (marked : mark = [] ∨ mark = ['\ufeff'])
    (space : IsSpaces spaces) (around : WrittenFrames frames front back)
    (array : WrittenSlot slot opening closing) (stray : IsStrayWord word) (after : List Char)
    (damaged : text =
      mark ++ spaces ++ (front ++ '[' :: (opening ++ (word ++ (closing ++ (back ++ after)))))) :
    (decode text : Value α) = decode (mark ++ spaces ++
        (front ++ (Literal.null.word ++ (closing ++ (back ++ after))))) ∧
      (∀ slots : List (Slot α), frames = slots.map .entry →
        decode text = spill slot.behind slots .null ∧
        (decode text = plug frames .null ↔ ∀ outer ∈ slots, outer.behind = slot.behind)) ∧
      (∀ frame ∈ frames, frame.IsObject → '"' ∉ closing ++ (back ++ after) →
        decode text = (.null : Value α) ∧ plug frames .null ≠ .null) := by
  have read : (decode text : Value α) = _ := damaged ▸ decode_around marked space around array stray
  refine ⟨?_, fun slots arrays => ?_, fun frame mem object quotes => ?_⟩
  · have plain := head_written (Written.null (α := α)) (closing ++ (back ++ after))
    have ends := endsWord_closing array (back ++ after)
    rw [read, decode_behind marked space (head_front around plain),
      (readsAs_within around (readsAs_written .null fun _ => ends)).alone]
  · subst arrays
    rw [read, goOnIn_slots around array]
    exact ⟨rfl, spill_eq_plug_iff⟩
  · rw [read, goOnIn_object around mem object array quotes]
    exact ⟨rfl, plug_ne_null (List.ne_nil_of_mem mem) _⟩

theorem writtenEntries_whole {n : Int} (range : IsInt64 n) :
    WrittenEntries [(.number (.whole n) : Value α)] n.repr.toList := by
  have entry := WrittenEntries.cons (Written.whole (α := α) (writtenInteger_repr range) range)
    (by decide : IsGap []) .nil nofun
  rwa [List.append_nil, List.append_nil] at entry

omit [Scalar α] in
theorem isSeparator_comma (side : List (Value α)) : IsSeparator side [','] :=
  ⟨by decide, fun _ => List.mem_cons_self⟩

end Surroundings

theorem isStrayWord_nope : IsStrayWord "nope".toList :=
  have letters : "nope".toList.all Char.isAlpha = true := by decide
  isStrayWord_of_isAlpha (by decide) (List.all_eq_true.mp letters) fun literal => by
    cases literal <;> decide

/-- An array with 2 behind a place at its front. -/
theorem writtenFrames_two :
    WrittenFrames ([⟨[], [(.number (.whole 2) : Value Rat)]⟩].map .entry) ['['] ",2]".toList :=
  .cons (.entry (.mk (by decide : IsGap []) .nil ⟨by decide, nofun⟩ (isSeparator_comma _)
    (writtenEntries_whole (by decide)))) .nil

/-- An array that ends like the one inside it. -/
theorem decode_damaged_twins :
    (decode "[[1,nope,2],2]".toList : Value Rat) = .array [.null, .number (.whole 2)] := by
  have inner : WrittenSlot ⟨[.number (.whole 1)], [.number (.whole 2)]⟩ "1,".toList ",2]".toList :=
    .mk (α := Rat) (by decide : IsGap []) (writtenEntries_whole (by decide)) (isSeparator_comma _)
      (isSeparator_comma _) (writtenEntries_whole (by decide))
  have damaged := decode_damaged (.inl rfl) (by decide : IsSpaces []) writtenFrames_two inner
    isStrayWord_nope [] rfl
  exact (damaged.2.1 [_] rfl).2.mpr (by simp)

/-- An array that ends unlike the one inside it loses its entries, and an object is lost. -/
theorem decode_loses_siblings :
    (decode "[[1],2]".toList : Value Rat) =
        .array [.array [.number (.whole 1)], .number (.whole 2)] ∧
      (decode "[[1,nope],2]".toList : Value Rat) ≠ .array [.null, .number (.whole 2)] ∧
      (decode "\x7b\"k\":[nope]\x7d".toList : Value Rat) ≠ .object [([.ofChar 'k'], .null)] := by
  refine ⟨?_, ?_, fun same => ?_⟩
  · have whole : Written (.array [(.number (.whole 1) : Value Rat)]) "[1]".toList :=
      .array (by decide : IsGap []) (writtenEntries_whole (by decide))
    exact decode_plug (.inl rfl) (by decide : IsSpaces []) writtenFrames_two whole nofun
  · have inner : WrittenSlot ⟨[.number (.whole 1)], []⟩ "1,".toList "]".toList :=
      .mk (α := Rat) (by decide : IsGap []) (writtenEntries_whole (by decide))
        (isSeparator_comma _) ⟨(by decide : IsGap []), nofun⟩ .nil
    have read : decode "[[1,nope],2]".toList = (goOnIn ([_].map .entry) (.null : Value Rat) _).1 :=
      decode_around (.inl rfl) (by decide : IsSpaces []) writtenFrames_two inner isStrayWord_nope
    have spilled := read.trans (goOnIn_slots writtenFrames_two inner .null [])
    rw [spilled]
    simp [spill]
  · have set := congrArg Value.isTruthy same
    exact absurd set (by decide +kernel)

end CueCheck.LevelText
