import Abacus.Proofs.Grammar
import Abacus.Proofs.Reading

/-!
# Runs of the parsers

What the parsers do, by the item that comes next.

* `Level.parser` — the parser of a level.
* `Level.rest` — what it does after a phrase: it reads operators and operands on
  to it.
* `Parser.signed`, `Parser.closed`, `Level.joined` — what follows the operand of
  a sign, the expression after a parenthesis and the operand after an operator.
* `Parser.factor_sign`, `Level.Over.rest_isOp` and the lemmas beside them — one
  equation for each item that a factor can start with or a phrase can be
  followed by.
-/

namespace Abacus

/-! ## Parsers by level -/

namespace Level

/-- The parser of a level, with as many levels of signs and parentheses to go. -/
def parser (room : Nat) : Level → Parser Expr
  | expression => Parser.sum (Parser.factor room)
  | term => Parser.level Token.isMultiplicative (Parser.factor room)
  | factor => Parser.factor room

/-- Reads on after a phrase with the tree `left`. -/
def rest (room : Nat) (left : Expr) : Level → Parser Expr
  | expression => Parser.chain Token.isAdditive (term.parser room) left.depth left
  | term => Parser.chain Token.isMultiplicative (factor.parser room) left.depth left
  | factor => pure left

/-- Reads on after a phrase, one of its operators and the operand `right`. -/
def joined (level : Level) (room : Nat) (left : Expr) (op : Lexeme) (right : Expr) : Parser Expr :=
  if maxDepth < 1 + max left.depth right.depth then
    Parser.fail (.nestingTooDeep op.position)
  else
    level.rest room (.binary op.token left right op.position)

/-- Where the parser of a level leaves the cursor: only a factor is known to be
over without a look at the next item. -/
def leave : Level → Cursor → Cursor
  | factor, cursor => cursor
  | _, cursor => cursor.look

variable {level below : Level} {room : Nat} {left : Expr} {feed : Feed} {cursor : Cursor}
  {lexeme : Lexeme}

@[simp] theorem next_leave : (level.leave cursor).next = cursor.next := by
  cases level <;> rfl

@[simp] theorem look_leave : (level.leave cursor).look = cursor.look := by
  cases level <;> simp [leave]

theorem leave_eq_or (level : Level) (cursor : Cursor) :
    level.leave cursor = cursor ∨ level.leave cursor = cursor.look := by
  cases level <;> simp [leave]

/-- The use of an operator leaves no record. -/
theorem useOne_of_isOp (hop : level.isOp lexeme.token) : cursor.useOne lexeme = cursor.advance := by
  cases level with
  | expression => exact cursor.useOne_of_additive hop
  | term => exact cursor.useOne_of_multiplicative hop
  | factor => cases hop

namespace Over

theorem leave_eq (hover : level.Over below) : level.leave cursor = cursor.look := by
  cases hover <;> rfl

/-- A phrase is an operand and what is read on after it. -/
theorem parser_eq (hover : level.Over below) :
    level.parser room = below.parser room >>= fun left => level.rest room left := by
  cases hover <;> rfl

theorem rest_eq (hover : level.Over below) :
    level.rest room left = Parser.chain level.isOp (below.parser room) left.depth left := by
  cases hover <;> rfl

theorem joined_eq (hover : level.Over below) :
    level.joined room left lexeme = fun right =>
      if maxDepth < 1 + max left.depth right.depth then
        Parser.fail (.nestingTooDeep lexeme.position)
      else
        Parser.chain level.isOp (below.parser room) (1 + max left.depth right.depth)
          (.binary lexeme.token left right lexeme.position) := by
  funext right
  rw [joined, hover.rest_eq]
  rfl

theorem rest_end (hover : level.Over below) (hitem : feed.item cursor.next = none) :
    level.rest room left feed cursor = (.error .unexpectedEndOfInput, cursor) := by
  rw [hover.rest_eq, Parser.chain_eq, Parser.bind_error (Parser.peek_end hitem)]

theorem rest_error (hover : level.Over below) {error : LexError}
    (hitem : feed.item cursor.next = some (.error error)) :
    level.rest room left feed cursor = (.error (.lexical error), cursor.look) := by
  rw [hover.rest_eq, Parser.chain_eq, Parser.bind_error (Parser.peek_error hitem)]

/-- The phrase is over at the first lexeme that is no operator of its level. -/
theorem rest_stop (hover : level.Over below) (hitem : feed.item cursor.next = some (.ok lexeme))
    (hop : ¬ level.isOp lexeme.token) :
    level.rest room left feed cursor = (.ok left, cursor.look) := by
  rw [hover.rest_eq, Parser.chain_eq, Parser.bind_ok (Parser.peek_lexeme hitem), if_neg hop,
    Parser.pure_run]

/-- A phrase goes on with one operand after each operator of its level. -/
theorem rest_isOp (hover : level.Over below) (hitem : feed.item cursor.next = some (.ok lexeme))
    (hop : level.isOp lexeme.token) :
    level.rest room left feed cursor =
      (below.parser room >>= level.joined room left lexeme) feed (cursor.useOne lexeme) := by
  rw [hover.rest_eq, Parser.chain_eq, Parser.bind_ok (Parser.peek_lexeme hitem), if_pos hop,
    Parser.bind_ok (Parser.skip_run ..), Cursor.advance_look, useOne_of_isOp hop, hover.joined_eq]

/-- A second look at the next lexeme changes nothing. -/
theorem rest_look (hover : level.Over below) (hitem : feed.item cursor.next = some (.ok lexeme)) :
    level.rest room left feed cursor.look = level.rest room left feed cursor := by
  have hlooked : feed.item cursor.look.next = some (.ok lexeme) := hitem
  by_cases hop : level.isOp lexeme.token
  · rw [hover.rest_isOp hlooked hop, hover.rest_isOp hitem hop, Cursor.useOne_look]
  · rw [hover.rest_stop hlooked hop, hover.rest_stop hitem hop, Cursor.look_look]

/-- It does not matter for what is read on whether the operand before has looked at it. -/
theorem rest_leave (hover : level.Over below) (hitem : feed.item cursor.next = some (.ok lexeme)) :
    level.rest room left feed (below.leave cursor) = level.rest room left feed cursor := by
  rcases leave_eq_or below cursor with hleave | hleave
  · rw [hleave]
  · rw [hleave, hover.rest_look hitem]

end Over

end Level

/-! ## Factors -/

namespace Parser

/-- Ends a factor that started with the sign `op`. -/
def signed (op : Lexeme) (operand : Expr) : Parser Expr :=
  if maxDepth < 1 + operand.depth then
    fail (.nestingTooDeep op.position)
  else
    pure (.unary op.token operand op.position)

/-- Ends a factor that started with a parenthesis. -/
def closed (tree : Expr) : Parser Expr := do
  let _ ← eat [.rparen]
  pure tree

variable {room : Nat} {feed : Feed} {cursor : Cursor} {lexeme : Lexeme} {position : Nat}

theorem factor_end (hitem : feed.item cursor.next = none) :
    factor room feed cursor = (.error .unexpectedEndOfInput, cursor) := by
  cases room with
  | zero => rw [factor_zero_eq, bind_error (peek_end hitem)]
  | succ room => rw [factor_succ_eq, bind_error (peek_end hitem)]

theorem factor_error {error : LexError} (hitem : feed.item cursor.next = some (.error error)) :
    factor room feed cursor = (.error (.lexical error), cursor.look) := by
  cases room with
  | zero => rw [factor_zero_eq, bind_error (peek_error hitem)]
  | succ room => rw [factor_succ_eq, bind_error (peek_error hitem)]

theorem factor_zero (hitem : feed.item cursor.next = some (.ok lexeme)) :
    factor 0 feed cursor = (.error (.nestingTooDeep lexeme.position), cursor.look) := by
  rw [factor_zero_eq, bind_ok (peek_lexeme hitem), fail_run]

theorem factor_sign (hitem : feed.item cursor.next = some (.ok lexeme))
    (hop : lexeme.token.isAdditive) :
    factor (room + 1) feed cursor =
      (factor room >>= signed lexeme) feed (cursor.useOne lexeme) := by
  rw [factor_succ_eq, bind_ok (peek_lexeme hitem), if_pos hop, bind_ok (skip_run ..),
    Cursor.advance_look, Cursor.useOne_of_additive cursor hop]
  rfl

theorem factor_integer {value : UInt64}
    (hitem : feed.item cursor.next = some (.ok ⟨.integer value, position⟩)) :
    factor (room + 1) feed cursor =
      (.ok (.literal (.integer value) position), cursor.useOne ⟨.integer value, position⟩) := by
  have hlooked : feed.item cursor.look.next = some (.ok ⟨.integer value, position⟩) := hitem
  rw [factor_succ_eq, bind_ok (peek_lexeme hitem), if_neg (by simp [Token.isAdditive]),
    bind_ok (eat_lexeme hlooked (by simp [Token.kind])), if_pos (by simp [Token.kind]),
    pure_run, Cursor.advance_look, Cursor.useOne_of_recorded cursor rfl]

theorem factor_group (hitem : feed.item cursor.next = some (.ok ⟨.lparen, position⟩)) :
    factor (room + 1) feed cursor =
      (Level.expression.parser room >>= closed) feed (cursor.useOne ⟨.lparen, position⟩) := by
  have hlooked : feed.item cursor.look.next = some (.ok ⟨.lparen, position⟩) := hitem
  rw [factor_succ_eq, bind_ok (peek_lexeme hitem), if_neg (by simp [Token.isAdditive]),
    bind_ok (eat_lexeme hlooked (by simp [Token.kind])), if_neg (by simp [Token.kind]),
    Cursor.advance_look, Cursor.useOne_of_recorded cursor rfl]
  rfl

theorem factor_unexpected (hitem : feed.item cursor.next = some (.ok lexeme))
    (hop : ¬ lexeme.token.isAdditive)
    (hkind : lexeme.token.kind ∉ [Token.Kind.integer, Token.Kind.lparen]) :
    factor (room + 1) feed cursor =
      (.error (.unexpectedToken [.integer, .lparen] lexeme.token lexeme.position),
        cursor.look) := by
  have hlooked : feed.item cursor.look.next = some (.ok lexeme) := hitem
  rw [factor_succ_eq, bind_ok (peek_lexeme hitem), if_neg hop,
    bind_error (eat_unexpected hlooked hkind), Cursor.look_look]

theorem closed_rparen {tree : Expr}
    (hitem : feed.item cursor.next = some (.ok ⟨.rparen, position⟩)) :
    closed tree feed cursor = (.ok tree, cursor.useOne ⟨.rparen, position⟩) := by
  rw [closed, bind_ok (eat_lexeme hitem (by simp [Token.kind])), pure_run,
    Cursor.useOne_of_recorded cursor rfl]

theorem closed_unexpected {tree : Expr} (hitem : feed.item cursor.next = some (.ok lexeme))
    (hkind : lexeme.token.kind ∉ [Token.Kind.rparen]) :
    closed tree feed cursor =
      (.error (.unexpectedToken [.rparen] lexeme.token lexeme.position), cursor.look) := by
  rw [closed, bind_error (eat_unexpected hitem hkind)]

/-! ## Whole inputs -/

variable {next : Cursor}

theorem whole_error {error : ParseError}
    (hrun : expression 0 feed cursor = (.error error, next)) :
    whole feed cursor = (.error error, next) := by
  rw [whole_eq, bind_error hrun]

theorem whole_eof {tree : Expr}
    (hrun : expression 0 feed cursor = (.ok tree, next))
    (hitem : feed.item next.next = some (.ok lexeme)) (heof : lexeme.token = .eof) :
    whole feed cursor = (.ok tree, next.look) := by
  rw [whole_eq, bind_ok hrun, bind_ok (peek_lexeme hitem), if_pos heof, pure_run]

theorem whole_trailing {tree : Expr}
    (hrun : expression 0 feed cursor = (.ok tree, next))
    (hitem : feed.item next.next = some (.ok lexeme)) (heof : lexeme.token ≠ .eof) :
    whole feed cursor =
      (.error (.unexpectedTrailingTokens lexeme.token lexeme.position), next.look) := by
  rw [whole_eq, bind_ok hrun, bind_ok (peek_lexeme hitem), if_neg heof, fail_run]

end Parser

end Abacus
