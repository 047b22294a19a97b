import CueCheck.Proofs.LevelText.Reading
import CueCheck.Proofs.LevelText.Token

/-!
# What a reader does not look at

A reader that stops before the end of a text has read all that it needs: whatever follows, it reads
the same. At the end of a text it may have been cut short, but not if it has read a container, which
would then be null.

- **Pieces** (`takeWord_append_of_ne`, `readQuoted_append`, `nextToken_append`): what ends before
  the end of a text does not change when the text goes on.
- **Readers** (`IsStable`, `stableReaders`): the same for a value that is read. Each reader is
  stable if all are stable on shorter texts (`stable_of_token`, `IsStable.andThen`).
-/

namespace CueCheck.LevelText

variable {text more : List Char}

/-! ## Pieces -/

theorem takeWord_append_of_ne (h : dropWord text ≠ []) (more : List Char) :
    takeWord (text ++ more) = takeWord text ∧ dropWord (text ++ more) = dropWord text ++ more := by
  induction text with
  | nil => exact absurd rfl h
  | cons c text ih =>
    by_cases hc : isWordBreak c = true
    · simp [takeWord, dropWord, hc]
    · have goesOn : dropWord (c :: text) = dropWord text := by simp [dropWord, hc]
      obtain ⟨taken, dropped⟩ := ih (goesOn ▸ h)
      simp only [takeWord, dropWord] at taken dropped
      simp [takeWord, dropWord, hc, taken, dropped]

theorem readQuoted_append (h : (readQuoted text).2 ≠ []) (more : List Char) :
    readQuoted (text ++ more) = ((readQuoted text).1, (readQuoted text).2 ++ more) := by
  fun_induction readQuoted text with
  | case1 => exact absurd rfl h
  | case2 rest => rfl
  | case3 => exact absurd rfl h
  | case4 a b c d rest ih =>
    simp only [List.cons_append, readQuoted, ih h]
    rfl
  | case5 few => exact absurd rfl h
  | case6 c rest long short ih =>
    have hu : c ≠ 'u' := short
    rw [List.cons_append, List.cons_append, readQuoted_short hu, ih h]
    rfl
  | case7 c rest quote last long short escape ih =>
    have hb : c ≠ '\\' := by
      rintro rfl
      cases rest with
      | nil => exact last rfl rfl
      | cons d rest => exact escape d rest rfl rfl
    rw [List.cons_append, readQuoted_raw quote hb, ih h]
    rfl

/-- A token that cannot go on at the end of a text. -/
def Token.isClosed (token : Token) : Prop :=
  token ∈ [.closeBrace, .closeBracket, .comma]

theorem nextToken_cons_append {c : Char} {rest : List Char} (space : isSpace c = false)
    (h : (nextToken (c :: rest)).2 ≠ [] ∨ (nextToken (c :: rest)).1.isClosed) (more : List Char) :
    nextToken (c :: (rest ++ more)) =
      ((nextToken (c :: rest)).1, (nextToken (c :: rest)).2 ++ more) := by
  by_cases hc : c ∈ wordBreaks
  · simp only [wordBreaks, List.mem_cons, List.not_mem_nil, or_false] at hc
    rcases hc with rfl | rfl | rfl | rfl | rfl | rfl | rfl | rfl | rfl | rfl | rfl
    all_goals first | rfl | exact absurd space (by decide)
  · rw [nextToken_word hc] at h
    rw [nextToken_word hc, nextToken_word hc]
    by_cases number : startsNumber c = true
    · rw [if_pos number, if_pos number]
      rfl
    · rw [if_neg number] at h
      have word : ¬(Token.ofWord (c :: takeWord rest)).isClosed := by
        unfold Token.ofWord Token.isClosed
        split_ifs <;> simp
      obtain ⟨taken, dropped⟩ := takeWord_append_of_ne (h.resolve_right word) more
      rw [if_neg number, if_neg number, taken, dropped]

/-- A token that ends before its text does, or cannot go on, is the token of any longer text. -/
theorem nextToken_append (h : (nextToken text).2 ≠ [] ∨ (nextToken text).1.isClosed)
    (more : List Char) :
    nextToken (text ++ more) = ((nextToken text).1, (nextToken text).2 ++ more) := by
  have spaces : IsSpaces (text.takeWhile isSpace) := fun c hc =>
    isSpace_iff.mp (List.all_eq_true.mp List.all_takeWhile c hc)
  have skipped (after : List Char) :
      nextToken (text ++ after) = nextToken (text.dropWhile isSpace ++ after) := by
    have whole : text.takeWhile isSpace ++ (text.dropWhile isSpace ++ after) = text ++ after := by
      rw [← List.append_assoc, List.takeWhile_append_dropWhile]
    rw [← whole]
    exact nextToken_spaces spaces
  have alone := skipped []
  rw [List.append_nil, List.append_nil] at alone
  rw [skipped more]
  rw [alone] at h ⊢
  cases hd : text.dropWhile isSpace with
  | nil =>
    rw [hd] at h
    rcases h with h | h
    · exact absurd rfl h
    · simp [Token.isClosed, nextToken, tokenAt] at h
  | cons c rest =>
    rw [hd] at h
    refine nextToken_cons_append ?_ h more
    have head := List.head_dropWhile_not isSpace (l := text) (by simp [hd])
    simpa [hd] using head

theorem readString_append (h : (readString text).2 ≠ []) (more : List Char) :
    readString (text ++ more) = ((readString text).1, (readString text).2 ++ more) := by
  cases text with
  | nil => exact absurd rfl h
  | cons c rest => exact readQuoted_append h more

/-! ## Readers -/

section Readers

variable {α : Type} [Scalar α]

/-- An array or an object. -/
def IsContainer : Value α → Prop
  | .array _ | .object _ => True
  | _ => False

/-- A reader that has stopped before the end of its text, or has read a whole container. -/
def IsSettled (read : Value α × List Char) : Prop :=
  read.2 ≠ [] ∨ IsContainer read.1

/-- What a reader has settled on a text, it settles on any longer text. -/
def IsStable (read : List Char → Value α × List Char) (text : List Char) : Prop :=
  IsSettled (read text) → ∀ more, read (text ++ more) = ((read text).1, (read text).2 ++ more)

omit [Scalar α] in
theorem not_isSettled_null : ¬IsSettled ((.null, []) : Value α × List Char) := by
  rintro (h | h)
  · exact h rfl
  · exact h

omit [Scalar α] in
/-- A reader that goes by the next token is stable if it is stable behind that token, and settles
nothing on a token that may go on. -/
theorem stable_of_token {read : List Char → Value α × List Char}
    {after : Token × List Char → Value α × List Char}
    (reads : ∀ text, read text = after (nextToken text))
    (ends : ∀ token, IsSettled (after (token, [])) → token.isClosed)
    (behind : IsStable (fun left => after ((nextToken text).1, left)) (nextToken text).2) :
    IsStable read text := by
  intro settled more
  rw [reads] at settled
  have closed : (nextToken text).2 ≠ [] ∨ (nextToken text).1.isClosed := by
    by_cases hl : (nextToken text).2 = []
    · right
      apply ends
      rw [← hl]
      exact settled
    · exact .inl hl
  rw [reads, reads, nextToken_append closed]
  exact behind settled more

omit [Scalar α] in
/-- A reader that reads on where another one stops is stable if both are and it settles nothing at
the end of a text. -/
theorem IsStable.andThen {first : List Char → Value α × List Char}
    (next : Value α → List Char → Value α × List Char) (stable : IsStable first text)
    (unsettled : ∀ value, ¬IsSettled (next value []))
    (later : IsStable (next (first text).1) (first text).2) :
    IsStable (fun text => next (first text).1 (first text).2) text := by
  intro settled more
  have stops : (first text).2 ≠ [] := by
    intro h
    simp only [h] at settled
    exact unsettled _ settled
  simp only [stable (.inl stops) more]
  exact later settled more

theorem not_isSettled_membersAt (gathered : Value.Members α) :
    ¬IsSettled (membersAt gathered []) := by
  rw [membersAt_eq]
  exact not_isSettled_null

theorem not_isSettled_memberAt (gathered : Value.Members α) : ¬IsSettled (memberAt gathered []) :=
  not_isSettled_null

theorem not_isSettled_entriesAt (gathered : List (Value α)) :
    ¬IsSettled (entriesAt gathered []) := by
  rw [entriesAt_eq]
  exact not_isSettled_null

/-- All readers are stable on a text. -/
structure StableReaders (α : Type) [Scalar α] (text : List Char) : Prop where
  value : IsStable (valueAt (α := α)) text
  opened : ∀ kind c, IsStable (openedAt (α := α) kind c) text
  members : ∀ gathered, IsStable (membersAt (α := α) gathered) text
  entries : ∀ gathered, IsStable (entriesAt (α := α) gathered) text

section Step

variable (shorter : ∀ inner : List Char, inner.length < text.length → StableReaders α inner)
include shorter

theorem stable_memberAt (gathered : Value.Members α) : IsStable (memberAt gathered) text := by
  intro settled more
  have token : (nextToken (readString text).2).2 ≠ [] := by
    intro hl
    unfold memberAt at settled
    split at settled
    · rename_i h
      rw [h] at hl
      cases hl
    · rename_i h
      rw [h] at hl
      cases hl
      exact not_isSettled_null settled
  have key : (readString text).2 ≠ [] := by
    intro h
    rw [h] at token
    exact token rfl
  unfold memberAt at settled ⊢
  simp only [readString_append key, nextToken_append (.inl token)]
  have inside := (nextToken_suffix (readString text).2).trans (readString_suffix text)
  cases hn : nextToken (readString text).2 with
  | mk token left =>
    rw [hn] at settled inside
    match token, left with
    | .colon, c :: afterColon =>
      have value : afterColon.length < text.length := inside.length_le
      have rest : (valueAt (α := α) afterColon).2.length < text.length :=
        Nat.lt_of_le_of_lt (valueAt_suffix afterColon).length_le value
      exact IsStable.andThen
        (fun value => membersAt (Value.putMember (readString text).1 value gathered))
        (shorter _ value).value (fun _ => not_isSettled_membersAt _) ((shorter _ rest).members _)
        settled more
    | .colon, [] => exact absurd settled not_isSettled_null
    | .finish, _ => rfl
    | .unknown, _ => rfl
    | .closeBrace, _ => rfl
    | .closeBracket, _ => rfl
    | .comma, _ => rfl
    | .literal _, _ => rfl
    | .opening _, _ => rfl

theorem stable_membersAt (gathered : Value.Members α) : IsStable (membersAt gathered) text := by
  refine stable_of_token (membersAt_eq gathered) (fun token settled => ?_) ?_
  · cases token with
    | closeBrace => simp [Token.isClosed]
    | closeBracket => simp [Token.isClosed]
    | comma => simp [Token.isClosed]
    | finish => exact absurd settled not_isSettled_null
    | unknown => exact absurd settled not_isSettled_null
    | colon => exact absurd settled (not_isSettled_memberAt gathered)
    | literal => exact absurd settled (not_isSettled_memberAt gathered)
    | opening => exact absurd settled (not_isSettled_memberAt gathered)
  · have member : IsStable (memberAt gathered) (nextToken text).2 :=
      stable_memberAt (fun inner h =>
        shorter inner (Nat.lt_of_lt_of_le h (nextToken_suffix text).length_le)) gathered
    cases hn : nextToken text with
    | mk token left =>
      rw [hn] at member
      cases token with
      | finish => exact fun _ _ => rfl
      | unknown => exact fun _ _ => rfl
      | closeBrace => exact fun _ _ => rfl
      | comma =>
        have lt := @nextToken_lt text (by simp [hn]) (by simp [hn, Token.stays])
        rw [hn] at lt
        exact (shorter left lt).members gathered
      | _ => exact member

theorem stable_entriesAt (gathered : List (Value α)) : IsStable (entriesAt gathered) text := by
  refine stable_of_token (entriesAt_eq gathered) (fun token settled => ?_) ?_
  · cases token with
    | closeBrace => simp [Token.isClosed]
    | closeBracket => simp [Token.isClosed]
    | comma => simp [Token.isClosed]
    | literal => exact absurd settled (not_isSettled_entriesAt _)
    | _ => exact absurd settled not_isSettled_null
  · have inside := nextToken_suffix text
    have taken := @nextToken_lt text
    cases hn : nextToken text with
    | mk token left =>
      rw [hn] at inside taken
      cases token with
      | finish => exact fun _ _ => rfl
      | unknown => exact fun _ _ => rfl
      | closeBracket => exact fun _ _ => rfl
      | comma => exact (shorter left (taken nofun rfl)).entries gathered
      | closeBrace => exact (shorter left (taken nofun rfl)).entries _
      | literal word => exact (shorter left (taken nofun rfl)).entries _
      | colon =>
        cases left with
        | nil => exact fun settled => absurd settled not_isSettled_null
        | cons c left => exact (shorter left inside.length_le).entries gathered
      | opening kind =>
        cases left with
        | nil => exact fun settled => absurd settled not_isSettled_null
        | cons c left =>
          have opened : left.length < text.length := inside.length_le
          have rest : (openedAt (α := α) kind c left).2.length < text.length :=
            Nat.lt_of_le_of_lt (openedAt_suffix kind c left).length_le opened
          exact IsStable.andThen (fun value => entriesAt (value :: gathered))
            ((shorter left opened).opened kind c) (fun _ => not_isSettled_entriesAt _)
            ((shorter _ rest).entries _)

theorem stable_openedAt (kind : Opening) (c : Char) : IsStable (openedAt (α := α) kind c) text := by
  cases kind with
  | brace =>
    unfold IsStable
    simp only [openedAt_brace]
    exact stable_membersAt shorter []
  | bracket =>
    unfold IsStable
    simp only [openedAt_bracket]
    exact stable_entriesAt shorter []
  | quote =>
    intro settled more
    rw [openedAt_quote] at settled ⊢
    rw [openedAt_quote, readQuoted_append (settled.resolve_right id) more]
  | number =>
    intro settled more
    rw [openedAt_number] at settled ⊢
    obtain ⟨taken, dropped⟩ := takeWord_append_of_ne (settled.resolve_right id) more
    rw [openedAt_number, taken, dropped]

theorem stable_valueAt : IsStable (valueAt (α := α)) text := by
  refine stable_of_token valueAt_eq (fun token settled => ?_) ?_
  · cases token with
    | literal word =>
      refine absurd settled ?_
      cases word <;> simp [IsSettled, valueFrom, Literal.value, IsContainer]
    | _ => exact absurd settled not_isSettled_null
  · have inside := nextToken_suffix text
    cases hn : nextToken text with
    | mk token left =>
      rw [hn] at inside
      cases token with
      | opening kind =>
        cases left with
        | nil => exact fun settled => absurd settled not_isSettled_null
        | cons c left => exact (shorter left inside.length_le).opened kind c
      | _ => exact fun _ _ => rfl

end Step

/-- All readers are stable on every text. -/
theorem stableReaders (α : Type) [Scalar α] (text : List Char) : StableReaders α text := by
  induction hl : text.length using Nat.strongRecOn generalizing text with
  | ind n ih =>
    subst hl
    have shorter (inner : List Char) (h : inner.length < text.length) : StableReaders α inner :=
      ih inner.length h inner rfl
    exact ⟨stable_valueAt shorter, stable_openedAt shorter, stable_membersAt shorter,
      stable_entriesAt shorter⟩

end Readers

end CueCheck.LevelText
