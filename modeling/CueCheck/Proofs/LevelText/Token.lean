import CueCheck.Proofs.LevelText.Written

/-!
# Reading what is written, piece by piece

- **Strings** (`readQuoted_written`): whichever way its code points are written, a string is read up
  to its closing quote.
- **Bare words** (`takeWord_append`): a word is read up to a character that ends it. It is the
  number that it writes (`numberOfWord_integer`, `numberOfWord_real`).
- **Tokens** (`nextToken_literal`, `nextToken_number`, `nextToken_spaces`): what the reader sees
  where a word or white space is written.
-/

namespace CueCheck.LevelText

/-! ## Strings -/

section Strings

variable {c : Char} {after : List Char}

theorem readQuoted_raw (hq : c ≠ '"') (hb : c ≠ '\\') :
    readQuoted (c :: after) = prependTo (some (.ofChar c)) (readQuoted after) := by
  rw [readQuoted]
  · exact hq
  all_goals simp_all

theorem readQuoted_short (hu : c ≠ 'u') :
    readQuoted ('\\' :: c :: after) = prependTo (shortEscape? c) (readQuoted after) := by
  rw [readQuoted] <;> simp_all

theorem shortEscape?_of_mem {p : CodePoint} (h : (c, p.val) ∈ shortEscapes) :
    shortEscape? c = some p ∧ c ≠ 'u' := by
  have all : ∀ e ∈ shortEscapes, (shortEscape? e.1).map (·.val) = some e.2 ∧ e.1 ≠ 'u' := by decide
  obtain ⟨he, hu⟩ := all (c, p.val) h
  obtain ⟨q, hq, hv⟩ := Option.map_eq_some_iff.mp he
  exact ⟨hq.trans (congrArg some (Fin.ext hv)), hu⟩

theorem hexDigit?_of_isHexDigit {value : Fin 16} (h : IsHexDigit c value) :
    hexDigit? c = some value.val ∧ isBlank c = false ∧ c ∉ ['-', '+', 'x', 'X'] := by
  have all : ∀ v : Fin 16,
      (["0123456789abcdef".toList[v], "0123456789ABCDEF".toList[v]].all fun c =>
        hexDigit? c = some v.val ∧ isBlank c = false ∧ c ∉ ['-', '+', 'x', 'X']) = true := by
    decide +kernel
  exact of_decide_eq_true (List.all_eq_true.mp (all value) c h)

theorem ofInt?_val (p : CodePoint) : CodePoint.ofInt? p.val = some p := by
  have hp := p.isLt
  unfold CodePoint.ofInt?
  rw [dif_pos (by omega)]
  exact congrArg some (Fin.ext (Int.toNat_natCast p.val))

theorem numberedCodePoint?_of_isHexDigit {a b c d : Char} {w x y z : Fin 16} {p : CodePoint}
    (ha : IsHexDigit a w) (hb : IsHexDigit b x) (hc : IsHexDigit c y) (hd : IsHexDigit d z)
    (number : p.val = ((w.val * 16 + x) * 16 + y) * 16 + z) :
    numberedCodePoint? [a, b, c, d] = some p := by
  have digits : IsDigits hexDigit? [a, b, c, d] [w.val, x.val, y.val, z.val] :=
    .cons (hexDigit?_of_isHexDigit ha).1 <| .cons (hexDigit?_of_isHexDigit hb).1 <|
      .cons (hexDigit?_of_isHexDigit hc).1 <| .cons (hexDigit?_of_isHexDigit hd).1 .nil
  have plain : ∀ e ∈ [a, b, c, d], isBlank e = false ∧ e ∉ ['-', '+', 'x', 'X'] := by
    intro e he
    simp only [List.mem_cons, List.not_mem_nil, or_false] at he
    rcases he with rfl | rfl | rfl | rfl
    · exact (hexDigit?_of_isHexDigit ha).2
    · exact (hexDigit?_of_isHexDigit hb).2
    · exact (hexDigit?_of_isHexDigit hc).2
    · exact (hexDigit?_of_isHexDigit hd).2
  have value : ofDigits 16 [w.val, x.val, y.val, z.val] = p.val := by
    rw [number]
    simp [ofDigits]
  unfold numberedCodePoint?
  rw [hexInteger?_of_isDigits (by simp) digits plain, value, Option.bind_some]
  exact ofInt?_val p

/-- Reading a string from behind its opening quote. -/
theorem readQuoted_written {points : Text} {text : List Char} (h : WrittenString points text) :
    readQuoted (text ++ '"' :: after) = (points, after) := by
  induction h with
  | nil => rfl
  | cons point _ ih =>
    cases point with
    | raw quote backslash =>
      rw [List.append_assoc, List.singleton_append, readQuoted_raw quote backslash, ih]
      rfl
    | short escape =>
      obtain ⟨he, hu⟩ := shortEscape?_of_mem escape
      rw [List.append_assoc, List.cons_append, List.singleton_append, readQuoted_short hu, ih, he]
      rfl
    | numbered ha hb hc hd number =>
      simp only [List.cons_append, List.nil_append]
      rw [readQuoted, ih, numberedCodePoint?_of_isHexDigit ha hb hc hd number]
      rfl

end Strings

/-! ## Bare words -/

section Words

variable {word after : List Char}

/-- A bare word cannot go on here. -/
def EndsWord (after : List Char) : Prop :=
  ∀ c ∈ after.head?, c ∈ wordBreaks

theorem isWordBreak_iff {c : Char} : isWordBreak c = true ↔ c ∈ wordBreaks := by
  unfold isWordBreak isSpace wordBreaks
  simp only [Bool.or_eq_true, beq_iff_eq, List.mem_cons, List.not_mem_nil, or_false]
  tauto

theorem takeWord_append (unbroken : IsUnbroken word) (ends : EndsWord after) :
    takeWord (word ++ after) = word ∧ dropWord (word ++ after) = after := by
  have within : ∀ c ∈ word, (!isWordBreak c) = true := by
    intro c hc
    rw [Bool.not_eq_true', ← Bool.not_eq_true, isWordBreak_iff]
    exact unbroken c hc
  unfold takeWord dropWord
  rw [List.takeWhile_append_of_pos within, List.dropWhile_append_of_pos within]
  cases after with
  | nil => simp
  | cons c after =>
    have hc : isWordBreak c = true := isWordBreak_iff.mpr (ends c rfl)
    simp [hc]

/-- A word that is read as a number. -/
structure IsNumberWord (word : List Char) : Prop where
  nonempty : word ≠ []
  start : ∀ c ∈ word.head?, startsNumber c = true
  unbroken : IsUnbroken word

theorem startsNumber_iff {c : Char} : startsNumber c = true ↔ c.isDigit = true ∨ c = '-' := by
  unfold startsNumber
  rw [Bool.or_eq_true, beq_iff_eq]

theorem notMem_wordBreaks {c : Char} (h : startsNumber c = true) : c ∉ wordBreaks := by
  intro hc
  have none : (wordBreaks.all (!startsNumber ·)) = true := by decide
  have hn := List.all_eq_true.mp none c hc
  rw [h] at hn
  cases hn

theorem isNumberWord_of_isRealWord (h : IsRealWord word) : IsNumberWord word where
  nonempty := List.ne_nil_of_mem h.point
  start c hc := startsNumber_iff.mpr (h.start c hc)
  unbroken := h.unbroken

theorem isNumberWord_of_integer {n : Int} (h : WrittenInteger n word) : IsNumberWord word := by
  have digits {digits : List Char} (h : IsNumeral digits) : ∀ c ∈ digits, startsNumber c = true :=
    fun c hc => startsNumber_iff.mpr (.inl (h.digit c hc))
  cases h with
  | plain numeral =>
    exact ⟨numeral.nonempty, fun c hc => digits numeral c (List.mem_of_mem_head? hc),
      fun c hc => notMem_wordBreaks (digits numeral c hc)⟩
  | negative numeral =>
    refine ⟨List.cons_ne_nil _ _, fun c hc => ?_, fun c hc => ?_⟩
    · cases hc
      decide
    · rcases List.mem_cons.mp hc with rfl | hc
      · decide
      · exact notMem_wordBreaks (digits numeral c hc)

theorem numberOfWord_integer {α : Type} [Scalar α] {n : Int} (h : WrittenInteger n word)
    (range : IsInt64 n) : (numberOfWord word : Number α) = .whole n := by
  have noPoint {digits : List Char} (hd : ∀ c ∈ digits, c.isDigit = true) : '.' ∉ digits :=
    fun h => absurd (hd _ h) (by decide)
  have clamped : clampInteger n = n := if_pos range
  cases h with
  | plain numeral =>
    unfold numberOfWord
    rw [if_neg (noPoint numeral.digit),
      integer?_of_isDigit numeral.nonempty numeral.digit numeral.short, Option.getD_some, clamped]
  | negative numeral =>
    have absent := noPoint numeral.digit
    unfold numberOfWord
    rw [if_neg (by simp [absent]), integer?_neg numeral.nonempty numeral.digit numeral.short,
      Option.getD_some, clamped]

theorem numberOfWord_real {α : Type} [Scalar α] (h : IsRealWord word) :
    (numberOfWord word : Number α) = .real (realOfWord word) :=
  if_pos h.point

end Words

/-! ## Tokens -/

section Tokens

variable {c : Char} {spaces gap text after : List Char}

theorem isSpace_iff : isSpace c = true ↔ c ∈ ['\t', '\n', '\r', ' '] := by
  unfold isSpace
  simp only [Bool.or_eq_true, beq_iff_eq, List.mem_cons, List.not_mem_nil, or_false]
  tauto

theorem nextToken_spaces (h : IsSpaces spaces) : nextToken (spaces ++ text) = nextToken text := by
  unfold nextToken
  rw [List.dropWhile_append_of_pos fun c hc => isSpace_iff.mpr (h c hc)]

/-- The token of a bare word. -/
theorem nextToken_word (hc : c ∉ wordBreaks) (rest : List Char) :
    nextToken (c :: rest) =
      if startsNumber c then (.opening .number, c :: rest)
      else (.ofWord (c :: takeWord rest), dropWord rest) := by
  have space : isSpace c = false := by
    rw [← Bool.not_eq_true, isSpace_iff]
    intro h
    exact hc (List.mem_of_mem_take (i := 4) h)
  simp only [wordBreaks, List.mem_cons, not_or] at hc
  unfold nextToken
  rw [List.dropWhile_cons_of_neg (by simp [space])]
  simp [tokenAt, hc]

theorem nextToken_literal (literal : Literal) (ends : EndsWord after) :
    nextToken (literal.word ++ after) = (.literal literal, after) := by
  have known {c : Char} {rest : List Char} (start : startsNumber c = false)
      (unbroken : IsUnbroken (c :: rest))
      (token : Token.ofWord (c :: rest) = .literal literal) :
      nextToken (c :: rest ++ after) = (.literal literal, after) := by
    have ⟨taken, dropped⟩ := takeWord_append
      (fun d (hd : d ∈ rest) => unbroken d (List.mem_cons_of_mem _ hd)) ends
    rw [List.cons_append, nextToken_word (unbroken c List.mem_cons_self), if_neg (by simp [start]),
      taken, dropped, token]
  cases literal with
  | true => exact known (by decide) (by decide) (by decide)
  | false => exact known (by decide) (by decide) (by decide)
  | null => exact known (by decide) (by decide) (by decide)

theorem nextToken_number {word : List Char} (h : IsNumberWord word) (after : List Char) :
    nextToken (word ++ after) = (.opening .number, word ++ after) := by
  obtain ⟨c, rest, rfl⟩ := List.exists_cons_of_ne_nil h.nonempty
  have hc : startsNumber c = true := h.start c rfl
  rw [List.cons_append, nextToken_word (notMem_wordBreaks hc), if_pos hc]

theorem endsWord_gap (h : IsGap gap) (hr : gap = [] → EndsWord after) :
    EndsWord (gap ++ after) := by
  cases gap with
  | nil => exact hr rfl
  | cons c gap =>
    intro d hd
    cases hd
    have breaks : (['\t', '\n', '\r', ' ', ','].all (· ∈ wordBreaks)) = true := by decide
    exact of_decide_eq_true (List.all_eq_true.mp breaks c (h c List.mem_cons_self))

/-- A character of a gap is skipped: as white space, or as a comma. -/
theorem isGap_cons (h : c ∈ ['\t', '\n', '\r', ' ', ',']) (after : List Char) :
    nextToken (c :: after) = nextToken after ∨ nextToken (c :: after) = (.comma, after) := by
  by_cases hc : c = ','
  · subst hc
    exact .inr rfl
  · have space : isSpace c = true := by
      rw [isSpace_iff]
      simpa [hc] using h
    left
    unfold nextToken
    rw [List.dropWhile_cons_of_pos space]

end Tokens

end CueCheck.LevelText
