import Abacus.Parser.Basic
import Abacus.Expr

/-!
# Parsing expressions

The grammar, with repeated operators grouped from the left:

    expression := term (("+" | "-") term)*
    term       := factor (("*" | "/") factor)*
    factor     := ("+" | "-") factor | INTEGER | "(" expression ")"

Two limits hold whatever the feed, so that every parser here ends even on a
feed that does not:

* `maxNesting` — how many signs and parentheses may enclose a factor;
* `maxDepth` — how high a tree may become.

The rules of the grammar are written once, for every monad in which a feed can be
read (`Parser.Host`). Such a monad may keep the steps of which the outcome says
nothing (`Parser.Step`), such as a turn of a loop. A plain parser keeps none.

* `Parser.Rule.chain` — one level of left-grouped operators.
* `Parser.Rule.factor` — a factor, with an expression between parentheses.
* `Parser.term`, `Parser.expression` — two such levels over factors, as plain parsers.
* `Parser.whole` — an expression up to the end of the input.
-/

namespace Abacus

/-- The most signs and parentheses that may enclose a factor. -/
def maxNesting : Nat := 256

/-- The greatest height of a tree. -/
def maxDepth : Nat := 1024

namespace Parser

/-- Something that a parser does and its outcome does not show. -/
inductive Step where
  /-- A loop over operators comes to its head, with this height noted for this tree. -/
  | turn (height : Nat) (left : Expr)
  /-- A height is held against the limit; within it, the node will be built. -/
  | check (height : Nat) (node : Expr)
  /-- The node is built. -/
  | build (node : Expr)
deriving DecidableEq, Repr

/-- A monad in which a feed can be read, with a place for the steps. -/
class Host (m : Type → Type) where
  read {α : Type} : Parser α → m α
  note : Step → m Unit

/-- A plain parser keeps no steps. -/
instance : Host Parser where
  read p := p
  note _ := pure ()

/-- How many levels are left below `depth` enclosing signs and parentheses. -/
def room (depth : Nat) : Nat := maxNesting + 1 - depth

/-! ## The rules -/

namespace Rule

open Host (read note)

variable {m : Type → Type} [Monad m] [Host m]

/-- The operators of one level and their right operands, grouped from the left
onto `left`, a tree of the given height. A taller tree than `maxDepth` is not
built. The height grows with every operator, so there are at most `maxDepth` of
them. -/
def chain (isOp : Token → Bool) (operand : m Expr) (height : Nat) (left : Expr) : m Expr := do
  note (.turn height left)
  let lexeme ← read peek
  if isOp lexeme.token then
    read skip
    -- The operand comes first: an error in it wins over the height.
    let right ← operand
    let node := .binary lexeme.token left right lexeme.position
    note (.check (1 + max height right.depth) node)
    if tooHigh : maxDepth < 1 + max height right.depth then
      read (fail (.nestingTooDeep lexeme.position))
    else
      note (.build node)
      chain isOp operand (1 + max height right.depth) node
  else
    pure left
termination_by maxDepth - height
decreasing_by omega

/-- One level of operators between operands. -/
def level (isOp : Token → Bool) (operand : m Expr) : m Expr := do
  let left ← operand
  chain isOp operand left.depth left

/-- Factors between `*` and `/`, and those between `+` and `-`. -/
def sum (factor : m Expr) : m Expr :=
  level Token.isAdditive (level Token.isMultiplicative factor)

/-- A factor. `room` is how many levels of signs and parentheses there may be
from here on, counting the level of the factor itself. -/
def factor : Nat → m Expr
  | 0 => do
    -- An error of the feed itself wins over the nesting.
    let lexeme ← read peek
    read (fail (.nestingTooDeep lexeme.position))
  | room + 1 => do
    let lexeme ← read peek
    if lexeme.token.isAdditive then
      read skip
      let operand ← factor room
      let node := .unary lexeme.token operand lexeme.position
      note (.check (1 + operand.depth) node)
      if maxDepth < 1 + operand.depth then
        read (fail (.nestingTooDeep lexeme.position))
      else
        note (.build node)
        pure node
    else
      let first ← read (eat [.integer, .lparen])
      if first.token.kind = .integer then
        let node := .literal first.token first.position
        note (.build node)
        pure node
      else
        let tree ← sum (factor room)
        let _ ← read (eat [.rparen])
        pure tree

/-- An expression inside `depth` signs and parentheses. -/
def expression (depth : Nat) : m Expr := sum (factor (room depth))

/-- A term inside `depth` signs and parentheses. -/
def term (depth : Nat) : m Expr := level Token.isMultiplicative (factor (room depth))

/-- A whole input: one expression and the end-of-input token, which is not
used. -/
def whole : m Expr := do
  let tree ← expression 0
  let lexeme ← read peek
  if lexeme.token = .eof then
    pure tree
  else
    read (fail (.unexpectedTrailingTokens lexeme.token lexeme.position))

end Rule

/-! ## Plain parsers -/

/-- The operators of one level and their right operands, grouped onto `left`. -/
def chain (isOp : Token → Bool) (operand : Parser Expr) (height : Nat) (left : Expr) :
    Parser Expr :=
  Rule.chain isOp operand height left

/-- One level of operators between operands. -/
def level (isOp : Token → Bool) (operand : Parser Expr) : Parser Expr := Rule.level isOp operand

/-- Terms between `+` and `-`, made of these factors. -/
def sum (factor : Parser Expr) : Parser Expr := Rule.sum factor

/-- A factor, with room for that many levels of signs and parentheses. -/
def factor (room : Nat) : Parser Expr := Rule.factor room

/-- An expression inside `depth` signs and parentheses. -/
def expression (depth : Nat) : Parser Expr := Rule.expression depth

/-- A term inside `depth` signs and parentheses. -/
def term (depth : Nat) : Parser Expr := Rule.term depth

/-- A whole input. -/
def whole : Parser Expr := Rule.whole

section Equations

variable (isOp : Token → Bool) (operand : Parser Expr) (left : Expr)

theorem chain_eq (height : Nat) :
    chain isOp operand height left = (do
      let lexeme ← peek
      if isOp lexeme.token then
        skip
        let right ← operand
        if maxDepth < 1 + max height right.depth then
          fail (.nestingTooDeep lexeme.position)
        else
          chain isOp operand (1 + max height right.depth)
            (.binary lexeme.token left right lexeme.position)
      else
        pure left) := by
  rw [chain, Rule.chain]
  rfl

theorem level_eq :
    level isOp operand = (do
      let left ← operand
      chain isOp operand left.depth left) := rfl

theorem factor_zero_eq :
    factor 0 = (do
      let lexeme ← peek
      fail (.nestingTooDeep lexeme.position)) := rfl

theorem factor_succ_eq (room : Nat) :
    factor (room + 1) = (do
      let lexeme ← peek
      if lexeme.token.isAdditive then
        skip
        let operand ← factor room
        if maxDepth < 1 + operand.depth then
          fail (.nestingTooDeep lexeme.position)
        else
          pure (.unary lexeme.token operand lexeme.position)
      else
        let first ← eat [.integer, .lparen]
        if first.token.kind = .integer then
          pure (.literal first.token first.position)
        else
          let tree ← sum (factor room)
          let _ ← eat [.rparen]
          pure tree) := rfl

theorem whole_eq :
    whole = (do
      let tree ← expression 0
      let lexeme ← peek
      if lexeme.token = .eof then
        pure tree
      else
        fail (.unexpectedTrailingTokens lexeme.token lexeme.position)) := rfl

end Equations

end Parser

/-- Parses the input that starts at item `start` of a feed. -/
def parseFrom (start : Nat) (feed : Feed) : Except ParseError Expr × Cursor :=
  Parser.whole feed (.startingAt start)

/-- The tree of a feed. -/
def parse (feed : Feed) : Except ParseError Expr :=
  (parseFrom 0 feed).1

end Abacus
