import CueCheck.Proofs.LevelText.Reading

/-!
# Reading makes progress

However malformed a text is, its reader moves forward only, never past the end, and stops.

- **Positions** (`Cursor`): one reader over a text stands at a position, from which each call reads
  and moves on (`Cursor.callAll_eq`).
- **Passes** (`Cursor.position_lt_moveTo`): a pass that does not end its container takes something
  off the text, whatever the token.
- **Recursion** (`readUpTo`, `readUpTo_eq`): with a bound on the depth of the recursion in place of
  a reason to end, reading gives the same as soon as the bound exceeds twice what lies ahead.
-/

namespace CueCheck.LevelText

variable {α : Type} [Scalar α]

/-! ## Positions -/

/-- A text and how far it has been read. -/
structure Cursor where
  text : List Char
  position : Nat
  inside : position ≤ text.length

namespace Cursor

/-- What lies ahead. -/
def ahead (cursor : Cursor) : List Char :=
  cursor.text.drop cursor.position

/-- The cursor where only `rest` lies ahead. -/
def moveTo (cursor : Cursor) (rest : Rest cursor.ahead) : Cursor :=
  ⟨cursor.text, cursor.text.length - rest.val.length, Nat.sub_le _ _⟩

/-- Reads a value and moves behind it. -/
def call (cursor : Cursor) (request : Call) : Value α × Cursor :=
  let (value, rest) := request.read cursor.ahead
  (value, cursor.moveTo rest)

/-- The values of a series of calls, each with the cursor behind it. -/
def callAll (cursor : Cursor) : List Call → List (Value α × Cursor)
  | [] => []
  | request :: requests =>
    cursor.call request :: (cursor.call (α := α) request).2.callAll requests

theorem length_ahead (cursor : Cursor) :
    cursor.position + cursor.ahead.length = cursor.text.length := by
  have := cursor.inside
  rw [ahead, List.length_drop]
  omega

theorem ahead_moveTo (cursor : Cursor) (rest : Rest cursor.ahead) :
    (cursor.moveTo rest).ahead = rest.val := by
  have suffix : rest.val <:+ cursor.text := rest.property.trans (List.drop_suffix _ _)
  exact (List.suffix_iff_eq_drop.mp suffix).symm

theorem position_le_moveTo (cursor : Cursor) (rest : Rest cursor.ahead) :
    cursor.position ≤ (cursor.moveTo rest).position := by
  have := cursor.length_ahead
  have := rest.length_le
  show _ ≤ cursor.text.length - rest.val.length
  omega

/-- What makes the text ahead shorter moves the cursor. -/
theorem position_lt_moveTo (cursor : Cursor) {rest : Rest cursor.ahead}
    (shorter : rest.val.length < cursor.ahead.length) :
    cursor.position < (cursor.moveTo rest).position := by
  have := cursor.length_ahead
  show _ < cursor.text.length - rest.val.length
  omega

/-- The text stays, and no call goes back. -/
theorem pairwise_callAll (cursor : Cursor) (requests : List Call) :
    (cursor :: (cursor.callAll (α := α) requests).map (·.2)).Pairwise fun before after =>
      after.text = before.text ∧ before.position ≤ after.position := by
  induction requests generalizing cursor with
  | nil => exact List.pairwise_singleton _ _
  | cons request requests ih =>
    have later := ih (cursor.call (α := α) request).2
    have first : cursor.position ≤ (cursor.call (α := α) request).2.position :=
      cursor.position_le_moveTo _
    refine List.pairwise_cons.mpr ⟨fun after mem => ?_, later⟩
    rcases List.mem_cons.mp mem with rfl | mem
    · exact ⟨rfl, first⟩
    · obtain ⟨text, position⟩ := (List.pairwise_cons.mp later).1 after mem
      exact ⟨text, Nat.le_trans first position⟩

/-- A cursor reads what a series of calls reads of the text ahead. -/
theorem map_callAll (cursor : Cursor) (requests : List Call) :
    (cursor.callAll requests).map (·.1) = (readAll requests cursor.ahead : List (Value α)) := by
  induction requests generalizing cursor with
  | nil => rfl
  | cons request requests ih =>
    have next : (cursor.call (α := α) request).2.ahead =
        (request.read (α := α) cursor.ahead).2.val :=
      cursor.ahead_moveTo _
    rw [callAll, List.map_cons, ih, next]
    rfl

end Cursor

/-! ## Recursion -/

/-- What there is to read, and what has been gathered of it. -/
inductive Task (α : Type) where
  | value (text : List Char)
  | opened (kind : Opening) (c : Char) (text : List Char)
  | members (gathered : Value.Members α) (text : List Char)
  | entries (gathered : List (Value α)) (text : List Char)

namespace Task

/-- What the readers make of it. -/
def result : Task α → Value α × List Char
  | value text => valueAt text
  | opened kind c text => openedAt kind c text
  | members gathered text => membersAt gathered text
  | entries gathered text => entriesAt gathered text

/-- A member of an object, from its key on. -/
def memberStep (recur : Task α → Option (Value α × List Char)) (gathered : Value.Members α)
    (text : List Char) : Option (Value α × List Char) :=
  match nextToken (readString text).2 with
  | (.colon, _ :: afterColon) =>
    (recur (value afterColon)).bind fun read =>
      recur (members (Value.putMember (readString text).1 read.1 gathered) read.2)
  | (_, afterKey) => some (.null, afterKey)

/-- One level of the recursion: what is read at once, and what is left to `recur`. -/
def step (recur : Task α → Option (Value α × List Char)) :
    Task α → Option (Value α × List Char)
  | value text =>
    match nextToken text with
    | (.opening kind, c :: left) => recur (opened kind c left)
    | (.literal word, left) => some (word.value, left)
    | (_, left) => some (.null, left)
  | opened .brace _ text => recur (members [] text)
  | opened .bracket _ text => recur (entries [] text)
  | opened .quote _ text => some (.text (readQuoted text).1, (readQuoted text).2)
  | opened .number c text => some (.number (numberOfWord (c :: takeWord text)), dropWord text)
  | members gathered text =>
    match nextToken text with
    | (.finish, left) | (.unknown, left) => some (.null, left)
    | (.closeBrace, left) => some (.object gathered, left)
    | (.comma, left) => recur (members gathered left)
    | (_, left) => memberStep recur gathered left
  | entries gathered text =>
    match nextToken text with
    | (.finish, left) | (.unknown, left) => some (.null, left)
    | (.closeBracket, left) => some (.array gathered.reverse, left)
    | (.comma, left) | (.colon, _ :: left) => recur (entries gathered left)
    | (.closeBrace, left) => recur (entries (.null :: gathered) left)
    | (.literal word, left) => recur (entries (word.value :: gathered) left)
    | (.opening kind, c :: left) =>
      (recur (opened kind c left)).bind fun read => recur (entries (read.1 :: gathered) read.2)
    | (_, left) => some (.null, left)

/-- Reads with at most so many levels of recursion. -/
def readUpTo : Nat → Task α → Option (Value α × List Char)
  | 0, _ => none
  | depth + 1, task => task.step (readUpTo depth)

/-- The levels that a task may need: two for each character ahead. -/
def levels : Task α → Nat
  | value text | members _ text | entries _ text => 2 * text.length
  | opened _ _ text => 2 * text.length + 1

section Step

variable {recur : Task α → Option (Value α × List Char)} {text : List Char} {bound : Nat}
  (below : ∀ inner : Task α, inner.levels < bound → recur inner = some inner.result)
include below

theorem memberStep_eq (gathered : Value.Members α) (h : 2 * text.length ≤ bound) :
    memberStep recur gathered text = some (memberAt gathered text) := by
  unfold memberStep memberAt
  have inside := (nextToken_suffix (readString text).2).trans (readString_suffix text)
  cases hn : nextToken (readString text).2 with
  | mk token left =>
    rw [hn] at inside
    cases token with
    | colon =>
      cases left with
      | nil => rfl
      | cons c left =>
        have shorter : left.length < text.length := inside.length_le
        have rest := (valueAt_suffix (α := α) left).length_le
        have read := below (value left) (by simp only [levels]; omega)
        simp only [read, Option.bind_some, result]
        exact below (members _ _) (by simp only [levels]; omega)
    | _ => rfl

theorem step_value_eq (h : 2 * text.length = bound) :
    (value text).step recur = some (valueAt text) := by
  have inside := nextToken_suffix text
  rw [step, valueAt_eq]
  cases hn : nextToken text with
  | mk token left =>
    rw [hn] at inside
    cases token with
    | opening kind =>
      cases left with
      | nil => rfl
      | cons c left =>
        have shorter : left.length < text.length := inside.length_le
        exact below (opened kind c left) (by simp only [levels]; omega)
    | _ => rfl

theorem step_members_eq (gathered : Value.Members α) (h : 2 * text.length = bound) :
    (members gathered text).step recur = some (membersAt gathered text) := by
  have inside := nextToken_suffix text
  have taken := @nextToken_lt text
  rw [step, membersAt_eq]
  cases hn : nextToken text with
  | mk token left =>
    rw [hn] at inside taken
    have within : left.length ≤ text.length := inside.length_le
    have member : memberStep recur gathered left = some (memberAt gathered left) :=
      memberStep_eq below gathered (by omega)
    cases token with
    | finish => rfl
    | unknown => rfl
    | closeBrace => rfl
    | comma =>
      have shorter : left.length < text.length := taken nofun rfl
      exact below (members gathered left) (by simp only [levels]; omega)
    | _ => exact member

theorem step_entries_eq (gathered : List (Value α)) (h : 2 * text.length = bound) :
    (entries gathered text).step recur = some (entriesAt gathered text) := by
  have inside := nextToken_suffix text
  have taken := @nextToken_lt text
  have goesOn (gathered : List (Value α)) {left : List Char}
      (shorter : left.length < text.length) :
      recur (entries gathered left) = some (entriesAt gathered left) :=
    below (entries gathered left) (by simp only [levels]; omega)
  rw [step, entriesAt_eq]
  cases hn : nextToken text with
  | mk token left =>
    rw [hn] at inside taken
    cases token with
    | finish => rfl
    | unknown => rfl
    | closeBracket => rfl
    | comma => exact goesOn _ (taken nofun rfl)
    | closeBrace => exact goesOn _ (taken nofun rfl)
    | literal word => exact goesOn _ (taken nofun rfl)
    | colon =>
      cases left with
      | nil => rfl
      | cons c left => exact goesOn _ inside.length_le
    | opening kind =>
      cases left with
      | nil => rfl
      | cons c left =>
        have shorter : left.length < text.length := inside.length_le
        have rest := (openedAt_suffix (α := α) kind c left).length_le
        have read := below (opened kind c left) (by simp only [levels]; omega)
        simp only [read, Option.bind_some]
        exact goesOn _ (Nat.lt_of_le_of_lt rest shorter)

/-- A level of the recursion passes on what needs fewer levels. -/
theorem step_eq (task : Task α) (h : task.levels = bound) :
    task.step recur = some task.result := by
  cases task with
  | value text => exact step_value_eq below h
  | opened kind c text =>
    cases kind with
    | brace =>
      rw [step, below _ (h ▸ Nat.lt_succ_self _), result, result, openedAt_brace]
    | bracket =>
      rw [step, below _ (h ▸ Nat.lt_succ_self _), result, result, openedAt_bracket]
    | quote => rw [step, result, openedAt_quote]
    | number => rw [step, result, openedAt_number]
  | members gathered text => exact step_members_eq below gathered h
  | entries gathered text => exact step_entries_eq below gathered h

end Step

/-- Every task is done within its levels. -/
theorem readUpTo_eq {task : Task α} {depth : Nat} (h : task.levels < depth) :
    task.readUpTo depth = some task.result := by
  induction depth generalizing task with
  | zero => exact absurd h (Nat.not_lt_zero _)
  | succ depth ih =>
    exact step_eq (fun inner fewer => ih (by omega)) task rfl

end Task

/-- Reads one value with at most so many levels of recursion. -/
def Call.readUpTo (depth : Nat) : Call → List Char → Option (Value α × List Char)
  | .value, text => Task.readUpTo depth (.value text)
  | .object, text => Task.readUpTo depth (.members [] (text.drop 1))
  | .array, text => Task.readUpTo depth (.entries [] (text.drop 1))
  | .string, text => some (.text (readString text).1, (readString text).2)
  | .number, text => some (.number (numberOfWord (takeWord text)), dropWord text)

theorem Call.readUpTo_eq (call : Call) {text : List Char} {depth : Nat}
    (h : 2 * text.length < depth) :
    call.readUpTo depth text = some (Rest.forget (call.read text : Value α × Rest text)) := by
  have behind : (text.drop 1).length ≤ text.length := (List.drop_suffix 1 text).length_le
  cases call with
  | value => exact Task.readUpTo_eq h
  | object =>
    have enough : (Task.members [] (text.drop 1) : Task α).levels < depth := by
      simp only [Task.levels]
      omega
    exact Task.readUpTo_eq enough
  | array =>
    have enough : (Task.entries [] (text.drop 1) : Task α).levels < depth := by
      simp only [Task.levels]
      omega
    exact Task.readUpTo_eq enough
  | string => rfl
  | number => rfl

/-! ## The result -/

/-- A reader of a text, at any position of it, over any series of calls: it reads each value where
the one before it stopped; its position never goes back, nor past the end. A pass over a container
that does not end it moves on, and the loop goes on from there. And reading needs no more levels of
recursion than two for each character ahead. -/
theorem Cursor.reading_progresses (cursor : Cursor) (requests : List Call) :
    (cursor.callAll requests).map (·.1) = (readAll requests cursor.ahead : List (Value α)) ∧
    ((cursor :: (cursor.callAll (α := α) requests).map (·.2)).Pairwise fun before after =>
      after.text = before.text ∧ before.position ≤ after.position) ∧
    (∀ members gathered rest shorter,
      memberPass (α := α) members cursor.ahead = .more gathered rest shorter →
        cursor.position < (cursor.moveTo rest).position ∧
          membersAt members cursor.ahead = membersAt gathered (cursor.moveTo rest).ahead) ∧
    (∀ entries gathered rest shorter,
      entryPass (α := α) entries cursor.ahead = .more gathered rest shorter →
        cursor.position < (cursor.moveTo rest).position ∧
          entriesAt entries cursor.ahead = entriesAt gathered (cursor.moveTo rest).ahead) ∧
    ∀ (request : Call) (depth : Nat), 2 * (cursor.text.length - cursor.position) < depth →
      request.readUpTo depth cursor.ahead =
        some ((cursor.call (α := α) request).1, (cursor.call (α := α) request).2.ahead) := by
  refine ⟨cursor.map_callAll requests, cursor.pairwise_callAll requests, ?_, ?_, ?_⟩
  · intro members gathered rest shorter goesOn
    refine ⟨cursor.position_lt_moveTo shorter, ?_⟩
    rw [membersAt_eq_andThen, goesOn, cursor.ahead_moveTo]
    rfl
  · intro entries gathered rest shorter goesOn
    refine ⟨cursor.position_lt_moveTo shorter, ?_⟩
    rw [entriesAt_eq_andThen, goesOn, cursor.ahead_moveTo]
    rfl
  · intro request depth enough
    have := cursor.length_ahead
    rw [request.readUpTo_eq (by omega)]
    exact congrArg (fun left => some (_, left)) (cursor.ahead_moveTo _).symm

end CueCheck.LevelText
