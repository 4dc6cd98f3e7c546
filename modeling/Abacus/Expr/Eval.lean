import Abacus.Expr
import Abacus.Word

/-!
# Evaluating trees

A tree is walked children first, left before right, and the walk stops at the
first node that fails.

* `Walk` — how a walk ended, and the nodes it gave a value to, in order.
* `Expr.walk` — the walk of a tree. Literals keep their unsigned value; the
  result of an operator is a signed 64-bit word.
* `Expr.evaluation`, `Expr.evaluate` — the value of a tree as a signed 64-bit
  word, with and without the walk.
-/

namespace Abacus

/-- A node that was given a value. -/
structure Visit where
  node : Expr
  value : Wide
deriving DecidableEq, Repr

/-- A computation over the nodes of a tree. -/
structure Walk (α : Type) where
  /-- The nodes that were given a value, in order. -/
  visits : List Visit
  outcome : Except EvalError α

namespace Walk

instance : Monad Walk where
  pure a := ⟨[], .ok a⟩
  bind walk next :=
    match walk.outcome with
    | .ok a =>
      let rest := next a
      ⟨walk.visits ++ rest.visits, rest.outcome⟩
    | .error error => ⟨walk.visits, .error error⟩

/-- A step that gives no node a value. -/
def lift {α : Type} (outcome : Except EvalError α) : Walk α := ⟨[], outcome⟩

/-- Ends the visit of a node. It counts only if the node has a value. -/
def visit (node : Expr) : Except EvalError Wide → Walk Wide
  | .ok value => ⟨[⟨node, value⟩], .ok value⟩
  | .error error => ⟨[], .error error⟩

/-- A walk goes on after a step that succeeds and ends at one that fails. -/
theorem outcome_bind {α β : Type} (walk : Walk α) (next : α → Walk β) :
    (walk >>= next).outcome = walk.outcome.bind fun a => (next a).outcome := by
  rcases walk with ⟨visits, _ | _⟩ <;> rfl

@[simp] theorem outcome_visit (node : Expr) (outcome : Except EvalError Wide) :
    (visit node outcome).outcome = outcome := by
  cases outcome <;> rfl

end Walk

namespace Expr

/-- The value of a literal node. -/
def literalValue (token : Token) (position : Nat) : Except EvalError Wide :=
  match token with
  | .integer value => .ok (.ofLiteral value)
  | token => .error (.internal ("literal node holds " ++ token.display) position)

/-- Walks the nodes of a tree, children first. -/
def walk : Expr → Walk Wide
  | literal token position => Walk.visit (literal token position) (literalValue token position)
  | unary op operand position => do
    let value ← operand.walk
    Walk.visit (unary op operand position) ((evalUnary op value position).map .ofResult)
  | binary op left right position => do
    let leftValue ← left.walk
    let rightValue ← right.walk
    Walk.visit (binary op left right position)
      ((evalBinary op leftValue rightValue position).map .ofResult)

/-- Walks a tree and keeps its value as a 64-bit word. A literal that stands
alone may be too large for that. -/
def evaluation (tree : Expr) : Walk Int64 := do
  let value ← tree.walk
  Walk.lift (narrow value tree.position)

/-- The value of a tree. -/
def evaluate (tree : Expr) : Except EvalError Int64 :=
  tree.evaluation.outcome

end Expr

end Abacus
