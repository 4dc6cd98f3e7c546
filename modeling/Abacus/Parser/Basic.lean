import Abacus.Feed

/-!
# Reading a feed with one item of lookahead

* `Cursor` — how far a feed has been read: which item comes next, how many have
  been pulled, and which tokens have been eaten. Looking at the next item pulls
  it without using it, so at most one item is pulled and not used.
* `Parser` — a computation that reads a feed. It hands back a cursor whether it
  succeeds or fails, and a failed one shows how far it came.
* `Parser.peek`, `Parser.skip`, `Parser.eat` — the steps parsers are made of.
-/

namespace Abacus

/-- How far a feed has been read. -/
structure Cursor where
  /-- The index of the next item to be used. -/
  next : Nat
  /-- The number of items that have left the feed. -/
  pulled : Nat
  /-- The tokens used by `Parser.eat`, in order. -/
  eaten : Array Lexeme
deriving DecidableEq, Repr, Inhabited

namespace Cursor

/-- A cursor that has used the first `start` items and looked at no other. -/
def startingAt (start : Nat) : Cursor := ⟨start, start, #[]⟩

/-- The next item has been looked at. -/
def look (cursor : Cursor) : Cursor :=
  { cursor with pulled := max cursor.pulled (cursor.next + 1) }

/-- The next item has been used. -/
def advance (cursor : Cursor) : Cursor :=
  { cursor with next := cursor.next + 1, pulled := max cursor.pulled (cursor.next + 1) }

/-- One more token has been eaten. -/
def record (cursor : Cursor) (lexeme : Lexeme) : Cursor :=
  { cursor with eaten := cursor.eaten.push lexeme }

/-- Uses the next item, if there is one. -/
def take? (cursor : Cursor) (feed : Feed) : Option Item × Cursor :=
  match feed.item cursor.next with
  | some item => (some item, cursor.advance)
  | none => (none, cursor)

end Cursor

/-- A computation that reads a feed. -/
def Parser (α : Type) : Type :=
  Feed → Cursor → Except ParseError α × Cursor

namespace Parser

/-- Stops with an error; the cursor stays where it is. -/
def fail {α : Type} (error : ParseError) : Parser α :=
  fun _ cursor => (.error error, cursor)

instance : Monad Parser where
  pure a := fun _ cursor => (.ok a, cursor)
  bind p f := fun feed cursor =>
    match p feed cursor with
    | (.ok a, cursor) => f a feed cursor
    | (.error error, cursor) => (.error error, cursor)

/-- The next lexeme, which stays in place. -/
def peek : Parser Lexeme := fun feed cursor =>
  match feed.item cursor.next with
  | some (.ok lexeme) => (.ok lexeme, cursor.look)
  | some (.error error) => (.error (.lexical error), cursor.look)
  | none => (.error .unexpectedEndOfInput, cursor)

/-- Uses the next item. -/
def skip : Parser Unit := fun _ cursor => (.ok (), cursor.advance)

/-- Notes that a token has been eaten. -/
def record (lexeme : Lexeme) : Parser Unit := fun _ cursor => (.ok (), cursor.record lexeme)

/-- Uses the next lexeme if its kind is one of `expected`, and leaves it in
place otherwise. -/
def eat (expected : List Token.Kind) : Parser Lexeme := do
  let lexeme ← peek
  if lexeme.token.kind ∈ expected then
    skip
    record lexeme
    pure lexeme
  else
    fail (.unexpectedToken expected lexeme.token lexeme.position)

/-! ## Running a parser step by step -/

variable {α β : Type} (feed : Feed) (cursor : Cursor)

@[simp] theorem pure_run (a : α) : (pure a : Parser α) feed cursor = (.ok a, cursor) := rfl

@[simp] theorem fail_run (error : ParseError) :
    (fail error : Parser α) feed cursor = (.error error, cursor) := rfl

theorem bind_run (p : Parser α) (f : α → Parser β) :
    (p >>= f) feed cursor =
      match p feed cursor with
      | (.ok a, cursor) => f a feed cursor
      | (.error error, cursor) => (.error error, cursor) := rfl

@[simp] theorem skip_run : skip feed cursor = (.ok (), cursor.advance) := rfl

@[simp] theorem record_run (lexeme : Lexeme) :
    record lexeme feed cursor = (.ok (), cursor.record lexeme) := rfl

end Parser

end Abacus
