import Abacus.Parser.Expression

/-!
# The grammar

The phrases of the language and the trees they stand for, without any limit on
their size.

* `Level` — expressions, terms and factors.
* `Derives level lexemes tree nest` — the lexemes are a phrase of the level and
  stand for the tree; at most `nest` signs and parentheses enclose a factor of
  it, and some factor has that many around it.
* `Joins` — an operator with its operands, and the height of their node.
* `Viable`, `Complete` — token lists that can be made into an expression by
  tokens after them, and those that are one already.
-/

namespace Abacus

/-- The levels of the grammar, from the one whose operators bind weakest. -/
inductive Level where
  | expression
  | term
  | factor
deriving DecidableEq, Repr

namespace Level

/-- The operators that stand between the operands of a level. -/
def isOp : Level → Token → Bool
  | expression => Token.isAdditive
  | term => Token.isMultiplicative
  | factor => fun _ => false

/-- `level.Over below`: the operands of `level` are the phrases of `below`. -/
inductive Over : Level → Level → Prop where
  | expression : Over expression term
  | term : Over term factor

/-- No operator belongs to two levels. -/
theorem Over.not_isOp {level below : Level} (hover : level.Over below) {op : Token}
    (hop : level.isOp op) : ¬ below.isOp op := by
  cases hover <;> cases op <;> simp_all [isOp, Token.isAdditive, Token.isMultiplicative]

end Level

/-! ## Phrases -/

/-- The lexemes are a phrase of the level, the tree is theirs, and `nest` is the
greatest number of signs and parentheses around a factor.

Repeated operators group to the left: what stands before the last operator of a
phrase is a phrase of the same level, and what stands after it is an operand. -/
inductive Derives : Level → List Lexeme → Expr → Nat → Prop where
  /-- An integer is a factor. -/
  | integer (value : UInt64) (position : Nat) :
    Derives .factor [⟨.integer value, position⟩] (.literal (.integer value) position) 0
  /-- A factor with a sign before it is a factor. -/
  | sign {op : Token} {position : Nat} {lexemes : List Lexeme} {tree : Expr} {nest : Nat}
    (hop : op.isAdditive) (hoperand : Derives .factor lexemes tree nest) :
    Derives .factor (⟨op, position⟩ :: lexemes) (.unary op tree position) (nest + 1)
  /-- An expression between parentheses is a factor, and they leave no node. -/
  | group {start stop : Nat} {lexemes : List Lexeme} {tree : Expr} {nest : Nat}
    (hinner : Derives .expression lexemes tree nest) :
    Derives .factor (⟨.lparen, start⟩ :: (lexemes ++ [⟨.rparen, stop⟩])) tree (nest + 1)
  /-- One operand by itself is a phrase of the level above. -/
  | single {level below : Level} {lexemes : List Lexeme} {tree : Expr} {nest : Nat}
    (hover : level.Over below) (hoperand : Derives below lexemes tree nest) :
    Derives level lexemes tree nest
  /-- A phrase followed by an operator of its level and one more operand is a phrase. -/
  | operator {level below : Level} {op : Token} {position : Nat} {lefts rights : List Lexeme}
    {left right : Expr} {m n : Nat} (hover : level.Over below)
    (hleft : Derives level lefts left m) (hop : level.isOp op)
    (hright : Derives below rights right n) :
    Derives level (lefts ++ ⟨op, position⟩ :: rights) (.binary op left right position) (max m n)

namespace Derives

variable {level : Level} {lexemes : List Lexeme} {tree : Expr} {nest : Nat}

/-- Any phrase is one of the level above, and so is a factor an expression. -/
theorem expression_of_factor (h : Derives .factor lexemes tree nest) :
    Derives .expression lexemes tree nest :=
  single .expression (single .term h)

end Derives

/-- The lexemes are a phrase of `level` that has the operator `op` at its root, with all of its
operands, and its tree has that height. The last operand is a phrase of `last`. -/
inductive Joins : Level → Level → List Lexeme → Lexeme → Nat → Prop where
  /-- A sign stands before its operand. -/
  | sign {op : Lexeme} {lexemes : List Lexeme} {operand : Expr} {nest : Nat}
    (hop : op.token.isAdditive) (hoperand : Derives .factor lexemes operand nest) :
    Joins .factor .factor (op :: lexemes) op (1 + operand.depth)
  /-- An operator with two operands stands between them. -/
  | operator {level below : Level} {op : Lexeme} {lefts rights : List Lexeme}
    {left right : Expr} {m n : Nat} (hover : level.Over below)
    (hleft : Derives level lefts left m) (hop : level.isOp op.token)
    (hright : Derives below rights right n) :
    Joins level below (lefts ++ op :: rights) op (1 + max left.depth right.depth)

namespace Joins

variable {level last : Level} {node : List Lexeme} {op : Lexeme} {height : Nat}

theorem op_mem (h : Joins level last node op height) : op ∈ node := by
  cases h <;> simp

/-- An operator with its operands is a phrase, and its tree has the height. -/
theorem derives (h : Joins level last node op height) :
    ∃ tree nest, Derives level node tree nest ∧ tree.depth = height := by
  cases h with
  | sign hop hoperand => exact ⟨_, _, .sign hop hoperand, rfl⟩
  | operator hover hleft hop hright => exact ⟨_, _, .operator hover hleft hop hright, rfl⟩

end Joins

/-! ## Token lists on the way to an expression -/

/-- The lexemes are an expression. -/
def Complete (lexemes : List Lexeme) : Prop :=
  ∃ tree nest, Derives .expression lexemes tree nest

/-- The lexemes are an expression with some lexemes, perhaps none, after them. -/
def Viable (lexemes : List Lexeme) : Prop :=
  ∃ rest, Complete (lexemes ++ rest)

end Abacus
