import CueCheck.Proofs.LevelText.Decoding
import CueCheck.Proofs.LevelText.Stability

/-!
# Truncation is noticed

A container that has been read is determined by its own text, from its opening to its closing
bracket. So no text and proper prefix of it both decode to containers, if the text ends where its
container does.

- **Closing brackets** (`Closes`, `closingReaders`): the readers stop behind a closing bracket if
  they have read a container.
- **The result** (`container_determined`).
-/

namespace CueCheck.LevelText

variable {text : List Char}

/-! ## Closing brackets -/

section Closing

/-- Where the next token is a closing bracket, the bracket stands in front of what is left. -/
theorem cons_suffix_of_closer {closer : Char}
    (h : (closer, (nextToken text).1) ∈ [(']', Token.closeBracket), ('\x7d', Token.closeBrace)]) :
    closer :: (nextToken text).2 <:+ text := by
  refine List.IsSuffix.trans ?_ (List.dropWhile_suffix isSpace)
  unfold nextToken at h ⊢
  generalize text.dropWhile isSpace = inner at h ⊢
  cases inner with
  | nil => simp [tokenAt] at h
  | cons c rest =>
    have word (w : List Char) : Token.ofWord w ≠ .closeBracket ∧ Token.ofWord w ≠ .closeBrace := by
      unfold Token.ofWord
      split_ifs <;> simp
    revert h
    simp only [tokenAt]
    repeat' split
    case isTrue brace =>
      intro h
      obtain rfl : closer = c := by simpa [brace] using h
      exact List.suffix_refl _
    case isFalse.isTrue bracket =>
      intro h
      obtain rfl : closer = c := by simpa [bracket] using h
      exact List.suffix_refl _
    -- No other character has the token of a closing bracket.
    all_goals
      intro h
      simp [word] at h

variable {α : Type} [Scalar α]

/-- A container ends with a closing bracket of the text in which it is read. -/
def Closes (read : Value α × List Char) (text : List Char) : Prop :=
  IsContainer read.1 → ∃ closer ∈ [']', '\x7d'], closer :: read.2 <:+ text

omit [Scalar α] in
theorem Closes.of_suffix {read : Value α × List Char} {inner : List Char} (h : Closes read inner)
    (hs : inner <:+ text) : Closes read text := by
  intro container
  obtain ⟨closer, hc, closed⟩ := h container
  exact ⟨closer, hc, closed.trans hs⟩

omit [Scalar α] in
theorem closes_null (left : List Char) : Closes ((.null, left) : Value α × List Char) text :=
  False.elim

/-- All containers that are read of a text end with a closing bracket of it. -/
structure ClosingReaders (α : Type) [Scalar α] (text : List Char) : Prop where
  value : Closes (valueAt text : Value α × List Char) text
  opened : ∀ kind c, Closes (openedAt kind c text : Value α × List Char) text
  members : ∀ gathered, Closes (membersAt gathered text : Value α × List Char) text
  entries : ∀ gathered, Closes (entriesAt gathered text : Value α × List Char) text

section Step

variable (shorter : ∀ inner : List Char, inner.length < text.length → ClosingReaders α inner)
include shorter

theorem closes_memberAt {inner : List Char} (hs : inner <:+ text) (gathered : Value.Members α) :
    Closes (memberAt gathered inner) text := by
  unfold memberAt
  split
  · rename_i c afterColon h
    have hv : c :: afterColon <:+ text := by
      have := (nextToken_suffix (readString inner).2).trans (readString_suffix inner)
      rw [h] at this
      exact this.trans hs
    have rest : (valueAt (α := α) afterColon).2 <:+ afterColon := valueAt_suffix afterColon
    refine ((shorter _ ?_).members _).of_suffix (rest.trans ((List.suffix_cons c _).trans hv))
    exact Nat.lt_of_le_of_lt rest.length_le hv.length_le
  · exact closes_null _

theorem closes_membersAt (gathered : Value.Members α) : Closes (membersAt gathered text) text := by
  rw [membersAt_eq]
  have inside := nextToken_suffix text
  have taken := @nextToken_lt text
  have closer := @cons_suffix_of_closer text
  cases hn : nextToken text with
  | mk token left =>
    rw [hn] at inside taken closer
    cases token with
    | finish => exact closes_null _
    | unknown => exact closes_null _
    | closeBrace => exact fun _ => ⟨'\x7d', by simp, closer (by simp)⟩
    | comma => exact ((shorter left (taken nofun rfl)).members gathered).of_suffix inside
    | _ => exact closes_memberAt shorter inside gathered

theorem closes_entriesAt (gathered : List (Value α)) : Closes (entriesAt gathered text) text := by
  rw [entriesAt_eq]
  have inside := nextToken_suffix text
  have taken := @nextToken_lt text
  have closer := @cons_suffix_of_closer text
  cases hn : nextToken text with
  | mk token left =>
    rw [hn] at inside taken closer
    cases token with
    | finish => exact closes_null _
    | unknown => exact closes_null _
    | closeBracket => exact fun _ => ⟨']', by simp, closer (by simp)⟩
    | comma => exact ((shorter left (taken nofun rfl)).entries _).of_suffix inside
    | closeBrace => exact ((shorter left (taken nofun rfl)).entries _).of_suffix inside
    | literal word => exact ((shorter left (taken nofun rfl)).entries _).of_suffix inside
    | colon =>
      cases left with
      | nil => exact closes_null _
      | cons c left =>
        exact ((shorter left inside.length_le).entries _).of_suffix
          ((List.suffix_cons c left).trans inside)
    | opening kind =>
      cases left with
      | nil => exact closes_null _
      | cons c left =>
        have rest : (openedAt (α := α) kind c left).2 <:+ left := openedAt_suffix kind c left
        refine ((shorter _ ?_).entries _).of_suffix
          (rest.trans ((List.suffix_cons c left).trans inside))
        exact Nat.lt_of_le_of_lt rest.length_le inside.length_le

theorem closes_openedAt (kind : Opening) (c : Char) :
    Closes (openedAt (α := α) kind c text) text := by
  cases kind with
  | brace => rw [openedAt_brace]; exact closes_membersAt shorter []
  | bracket => rw [openedAt_bracket]; exact closes_entriesAt shorter []
  | quote => rw [openedAt_quote]; exact False.elim
  | number => rw [openedAt_number]; exact False.elim

theorem closes_valueAt : Closes (valueAt (α := α) text) text := by
  rw [valueAt_eq]
  have inside := nextToken_suffix text
  cases hn : nextToken text with
  | mk token left =>
    rw [hn] at inside
    cases token with
    | opening kind =>
      cases left with
      | nil => exact closes_null _
      | cons c left =>
        exact ((shorter left inside.length_le).opened kind c).of_suffix
          ((List.suffix_cons c left).trans inside)
    | literal word => cases word <;> exact False.elim
    | _ => exact closes_null _

end Step

theorem closingReaders (α : Type) [Scalar α] (text : List Char) : ClosingReaders α text := by
  induction hl : text.length using Nat.strongRecOn generalizing text with
  | ind n ih =>
    subst hl
    have shorter (inner : List Char) (h : inner.length < text.length) : ClosingReaders α inner :=
      ih inner.length h inner rfl
    exact ⟨closes_valueAt shorter, closes_openedAt shorter, closes_membersAt shorter,
      closes_entriesAt shorter⟩

end Closing

/-! ## The result -/

section Truncation

variable {α : Type} [Scalar α]

/-- A container is determined by its own text: the reader stops right behind a closing bracket, and
it reads the same container up to the same place when the text goes on. A text that ends with its
container does not decode to a container when it is cut short. -/
theorem container_determined :
    (∀ text more : List Char, IsContainer (readValue text : Value α × Rest text).1 →
      (∃ closer ∈ [']', '\x7d'],
        closer :: (readValue text : Value α × Rest text).2.val <:+ text) ∧
      (readValue (text ++ more) : Value α × Rest (text ++ more)).1 =
        (readValue text : Value α × Rest text).1 ∧
      (readValue (text ++ more) : Value α × Rest (text ++ more)).2.val =
        (readValue text : Value α × Rest text).2.val ++ more) ∧
    ∀ text : List Char, IsContainer (decode text : Value α) →
      (readValue (dropMark text) : Value α × Rest (dropMark text)).2.val = [] →
      ∀ front, front <+: text → front ≠ text → ¬IsContainer (decode front : Value α) := by
  have longer (text more : List Char) (h : IsContainer (valueAt text : Value α × List Char).1) :
      (valueAt (text ++ more) : Value α × List Char) =
        ((valueAt text).1, (valueAt (α := α) text).2 ++ more) :=
    (stableReaders α text).value (.inr h) more
  refine ⟨fun text more h => ?_, fun text _ ended front hp hne container => ?_⟩
  · exact ⟨(closingReaders α text).value h, Prod.mk.inj (longer text more h)⟩
  · obtain ⟨more, rfl⟩ := hp
    have cut : more ≠ [] := by
      rintro rfl
      exact hne (List.append_nil front).symm
    have begun : front ≠ [] := by
      rintro rfl
      change IsContainer (valueAt [] : Value α × List Char).1 at container
      rw [valueAt_eq] at container
      exact container
    -- Reading the whole text would leave what was cut off, but it leaves nothing.
    have read := longer (dropMark front) more container
    rw [← dropMark_append begun] at read
    have left : (valueAt (α := α) (dropMark front)).2 ++ more = [] := (Prod.mk.inj read).2 ▸ ended
    exact cut (List.append_eq_nil_iff.mp left).2

/-- An array with an object in it: with a bracket too many behind it, and cut short. -/
theorem container_determined_nested :
    let text := "[1,\x7b\"k\":[]\x7d]".toList
    let longer := text ++ [']']
    IsContainer (readValue text : Value Rat × Rest text).1 ∧
      (readValue longer : Value Rat × Rest longer).2.val = [']'] ∧
      ¬IsContainer (decode text.dropLast : Value Rat) := by
  intro text longer
  have integer : Written (.number (.whole 1) : Value Rat) (Int.repr 1).toList :=
    .whole (writtenInteger_repr (by decide)) (by decide)
  have key : WrittenString [.ofChar 'k'] (['k'] ++ []) := .cons (.raw (by decide) (by decide)) .nil
  have members : WrittenMembers [([.ofChar 'k'], (.array [] : Value Rat))] _ :=
    .cons key (by decide : IsSpaces []) (by decide : IsSpaces [])
      (.array (by decide : IsGap []) .nil) (by decide : IsGap []) .nil
  have entries := WrittenEntries.cons integer (by decide : IsGap [','])
    (.cons (.object (by decide : IsGap []) (by decide) members) (by decide : IsGap []) .nil nofun)
    (by simp)
  have read : (valueAt text : Value Rat × List Char) =
      (.array [.number (.whole 1), .object [([.ofChar 'k'], .array [])]], []) :=
    valueAt_of_written (.array (by decide : IsGap []) entries) [] False.elim
  have container : IsContainer (readValue text : Value Rat × Rest text).1 := by
    show IsContainer (valueAt text).1
    rw [read]
    trivial
  have ended : (readValue text : Value Rat × Rest text).2.val = [] := congrArg Prod.snd read
  refine ⟨container, ?_, ?_⟩
  · rw [(container_determined.1 text [']'] container).2.2, ended]
    rfl
  · exact container_determined.2 text container ended _ text.dropLast_prefix (by decide)

end Truncation

end CueCheck.LevelText
