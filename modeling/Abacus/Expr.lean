import Abacus.Token

/-!
# Expression trees

* `Expr` — a literal, a sign over one operand, or an operator between two.
  Every node keeps its token and the byte offset of that token.
* `Expr.depth` — the height of a tree; a literal has height one.
* `Expr.render` — a tree as text, operator first and fully parenthesised.

Nothing here keeps a tree built by hand from holding any token anywhere; the
parser and the evaluator say what they make of it.
-/

namespace Abacus

/-- An expression tree. -/
inductive Expr where
  | literal (token : Token) (position : Nat)
  | unary (op : Token) (operand : Expr) (position : Nat)
  | binary (op : Token) (left right : Expr) (position : Nat)
deriving DecidableEq, Repr, Inhabited

namespace Expr

/-- The place of the root's own token. -/
def position : Expr → Nat
  | literal _ position => position
  | unary _ _ position => position
  | binary _ _ _ position => position

/-- The number of nodes on the longest way from the root to a leaf. -/
def depth : Expr → Nat
  | literal _ _ => 1
  | unary _ operand _ => 1 + operand.depth
  | binary _ left right _ => 1 + max left.depth right.depth

/-- The tree as text, such as `(+ 2 (* 3 4))`. -/
def render : Expr → String
  | literal token _ => token.literal
  | unary op operand _ => "(" ++ op.literal ++ " " ++ operand.render ++ ")"
  | binary op left right _ =>
    "(" ++ op.literal ++ " " ++ left.render ++ " " ++ right.render ++ ")"

end Expr

end Abacus
