import Abacus.Parser.Basic

/-!
# Reading lexemes off a feed

* `Feed.Holds feed start lexemes` — the lexemes are items of the feed, one after
  another, the first of them at index `start`.
* `Cursor.use` — the cursor after some lexemes have been used.
* What `Parser.peek` and `Parser.eat` do, by the item they meet, and what a
  sequence of two parsers does, by the outcome of the first.
-/

namespace Abacus

/-! ## Lexemes in a feed -/

/-- The lexemes stand in the feed from index `start` on. -/
def Feed.Holds (feed : Feed) (start : Nat) (lexemes : List Lexeme) : Prop :=
  ∀ i (h : i < lexemes.length), feed.item (start + i) = some (.ok lexemes[i])

namespace Feed

variable {feed : Feed} {start : Nat} {lexeme : Lexeme} {lexemes firsts lasts : List Lexeme}

@[simp] theorem holds_nil : feed.Holds start [] := by
  intro i h
  cases h

@[simp] theorem holds_cons :
    feed.Holds start (lexeme :: lexemes) ↔
      feed.item start = some (.ok lexeme) ∧ feed.Holds (start + 1) lexemes := by
  constructor
  · intro h
    refine ⟨h 0 (by simp), fun i hi => ?_⟩
    have hnext := h (i + 1) (by simpa using hi)
    rwa [show start + 1 + i = start + (i + 1) by omega]
  · rintro ⟨hfirst, hrest⟩ i hi
    cases i with
    | zero => exact hfirst
    | succ i =>
      have hnext := hrest i (by simpa using hi)
      rwa [show start + (i + 1) = start + 1 + i by omega]

@[simp] theorem holds_append :
    feed.Holds start (firsts ++ lasts) ↔
      feed.Holds start firsts ∧ feed.Holds (start + firsts.length) lasts := by
  induction firsts generalizing start with
  | nil => simp
  | cons lexeme firsts ih =>
    simp only [List.cons_append, holds_cons, ih, List.length_cons, and_assoc]
    rw [show start + 1 + firsts.length = start + (firsts.length + 1) by omega]

theorem holds_concat :
    feed.Holds start (lexemes ++ [lexeme]) ↔
      feed.Holds start lexemes ∧ feed.item (start + lexemes.length) = some (.ok lexeme) := by
  simp

/-- Lexemes and one more for ever are the lexemes and that one. -/
theorem holds_followedBy (lexemes : List Lexeme) (last : Lexeme) :
    (followedBy lexemes.toArray (.ok last)).Holds 0 (lexemes ++ [last]) := by
  intro i hi
  simp only [followedBy, item_endless, Nat.zero_add, List.getElem?_toArray]
  by_cases h : i < lexemes.length
  · rw [List.getElem?_eq_getElem h, List.getElem_append_left h]
    rfl
  · rw [List.getElem?_eq_none (Nat.le_of_not_lt h), List.getElem_append_right (Nat.le_of_not_lt h)]
    simp

end Feed

/-! ## Cursors -/

/-- The tokens of which the cursor keeps a record: all but the operators. -/
def Token.isRecorded : Token → Bool
  | .integer _ | .lparen | .rparen => true
  | _ => false

theorem Token.not_isRecorded {token : Token}
    (h : token.isAdditive ∨ token.isMultiplicative) : ¬ token.isRecorded := by
  cases token with
  | integer | lparen | rparen => simp [isAdditive, isMultiplicative] at h
  | _ => exact Bool.false_ne_true

namespace Cursor

variable (cursor : Cursor) (lexeme : Lexeme) (lexemes : List Lexeme)

/-- The next lexeme has been used. -/
def useOne : Cursor :=
  if lexeme.token.isRecorded then cursor.advance.record lexeme else cursor.advance

/-- The next lexemes have been used. -/
def use : Cursor := lexemes.foldl useOne cursor

@[simp] theorem use_nil : cursor.use [] = cursor := rfl

@[simp] theorem use_cons : cursor.use (lexeme :: lexemes) = (cursor.useOne lexeme).use lexemes :=
  rfl

@[simp] theorem use_append (firsts lasts : List Lexeme) :
    cursor.use (firsts ++ lasts) = (cursor.use firsts).use lasts :=
  List.foldl_append

@[simp] theorem next_look : cursor.look.next = cursor.next := rfl

@[simp] theorem next_useOne : (cursor.useOne lexeme).next = cursor.next + 1 := by
  unfold useOne
  split <;> rfl

@[simp] theorem next_use : (cursor.use lexemes).next = cursor.next + lexemes.length := by
  induction lexemes generalizing cursor with
  | nil => rfl
  | cons lexeme lexemes ih =>
    simp only [use_cons, ih, next_useOne, List.length_cons]
    omega

@[simp] theorem pulled_useOne :
    (cursor.useOne lexeme).pulled = max cursor.pulled (cursor.next + 1) := by
  unfold useOne
  split <;> rfl

/-- From where nothing has been looked at, only what is used is pulled. -/
theorem pulled_use {cursor : Cursor} (h : cursor.pulled = cursor.next) :
    (cursor.use lexemes).pulled = cursor.next + lexemes.length := by
  induction lexemes generalizing cursor with
  | nil => exact h
  | cons lexeme lexemes ih =>
    have hone : (cursor.useOne lexeme).pulled = (cursor.useOne lexeme).next := by
      rw [pulled_useOne, next_useOne]
      omega
    rw [use_cons, ih hone, next_useOne, List.length_cons]
    omega

/-- Looking twice is looking once. -/
@[simp] theorem look_look : cursor.look.look = cursor.look := by
  simp [look]

/-- An item that is used has been looked at. -/
@[simp] theorem advance_look : cursor.look.advance = cursor.advance := by
  simp [look, advance]

@[simp] theorem useOne_look : cursor.look.useOne lexeme = cursor.useOne lexeme := by
  simp [useOne]

variable {lexeme}

theorem useOne_of_recorded (h : lexeme.token.isRecorded) :
    cursor.useOne lexeme = cursor.advance.record lexeme :=
  if_pos h

/-- Operators leave no record. -/
theorem useOne_of_additive (h : lexeme.token.isAdditive) :
    cursor.useOne lexeme = cursor.advance :=
  if_neg (Token.not_isRecorded (.inl h))

theorem useOne_of_multiplicative (h : lexeme.token.isMultiplicative) :
    cursor.useOne lexeme = cursor.advance :=
  if_neg (Token.not_isRecorded (.inr h))

/-- Lexemes that are used leave a record of all that are no operators. -/
theorem eaten_use (lexemes : List Lexeme) :
    (cursor.use lexemes).eaten.toList =
      cursor.eaten.toList ++ lexemes.filter (·.token.isRecorded) := by
  induction lexemes generalizing cursor with
  | nil => simp
  | cons lexeme lexemes ih =>
    rw [use_cons, ih, List.filter_cons]
    by_cases hrecorded : lexeme.token.isRecorded
    · rw [useOne_of_recorded cursor hrecorded, if_pos hrecorded]
      simp [record, advance]
    · rw [useOne, if_neg hrecorded, if_neg hrecorded]
      rfl

end Cursor

/-! ## Steps of a parser -/

namespace Parser

variable {α β : Type} {feed : Feed} {cursor next : Cursor} {lexeme : Lexeme}
  {expected : List Token.Kind} {p : Parser α} {f : α → Parser β}

theorem bind_ok {a : α} (h : p feed cursor = (.ok a, next)) :
    (p >>= f) feed cursor = f a feed next := by
  rw [bind_run, h]

theorem bind_error {error : ParseError} (h : p feed cursor = (.error error, next)) :
    (p >>= f) feed cursor = (.error error, next) := by
  rw [bind_run, h]

theorem peek_lexeme (h : feed.item cursor.next = some (.ok lexeme)) :
    peek feed cursor = (.ok lexeme, cursor.look) := by
  simp [peek, h]

theorem peek_error {error : LexError} (h : feed.item cursor.next = some (.error error)) :
    peek feed cursor = (.error (.lexical error), cursor.look) := by
  simp [peek, h]

theorem peek_end (h : feed.item cursor.next = none) :
    peek feed cursor = (.error .unexpectedEndOfInput, cursor) := by
  simp [peek, h]

/-- A lexeme of an expected kind is eaten. -/
theorem eat_lexeme (h : feed.item cursor.next = some (.ok lexeme))
    (hkind : lexeme.token.kind ∈ expected) :
    eat expected feed cursor = (.ok lexeme, cursor.advance.record lexeme) := by
  rw [eat, bind_ok (peek_lexeme h), if_pos hkind]
  simp [bind_run]

/-- A lexeme of any other kind is left where it is. -/
theorem eat_unexpected (h : feed.item cursor.next = some (.ok lexeme))
    (hkind : lexeme.token.kind ∉ expected) :
    eat expected feed cursor =
      (.error (.unexpectedToken expected lexeme.token lexeme.position), cursor.look) := by
  rw [eat, bind_ok (peek_lexeme h), if_neg hkind, fail_run]

end Parser

end Abacus
