import Abacus.Proofs.Grammar
import Abacus.Proofs.Reading

/-!
# The tokens of a phrase and the nodes of its tree

* `Expr.lexeme`, `Expr.inorder` — the token of the root, and the tokens of all nodes
  in the order in which they are written.
* `Derives.inorder_eq` — they are the tokens of the phrase without its parentheses.
* `Derives.literalCount_eq` — the tree has as many literals as the phrase has integers.
* `Derives.depth_le` — the tree is no higher than the number of operators allows.
-/

namespace Abacus

/-! ## Nodes in order -/

namespace Token

/-- The tokens that leave no node in a tree. -/
def isParenthesis : Token → Bool
  | .lparen | .rparen => true
  | _ => false

/-- The tokens that stand for a number. -/
def isInteger : Token → Bool
  | .integer _ => true
  | _ => false

/-- The tokens that do something to numbers. -/
def isOperator (token : Token) : Bool :=
  token.isAdditive || token.isMultiplicative

/-- No token is of two kinds. -/
theorem not_isParenthesis_of_isOperator {op : Token} (hop : op.isOperator) :
    ¬ op.isParenthesis := by
  cases op <;> simp_all [isOperator, isAdditive, isMultiplicative, isParenthesis]

theorem not_isInteger_of_isOperator {op : Token} (hop : op.isOperator) : ¬ op.isInteger := by
  cases op <;> simp_all [isOperator, isAdditive, isMultiplicative, isInteger]

end Token

namespace Expr

/-- The token of the root and its place. -/
def lexeme : Expr → Lexeme
  | literal token position => ⟨token, position⟩
  | unary op _ position => ⟨op, position⟩
  | binary op _ _ position => ⟨op, position⟩

/-- The tokens of the nodes and their places: a sign in front of its operand, and an
operator between its two. -/
def inorder : Expr → List Lexeme
  | literal token position => [⟨token, position⟩]
  | unary op operand position => ⟨op, position⟩ :: operand.inorder
  | binary op left right position => left.inorder ++ ⟨op, position⟩ :: right.inorder

/-- The number of leaves. -/
def literalCount : Expr → Nat
  | literal _ _ => 1
  | unary _ operand _ => operand.literalCount
  | binary _ left right _ => left.literalCount + right.literalCount

theorem lexeme_mem_inorder (tree : Expr) : tree.lexeme ∈ tree.inorder := by
  cases tree <;> simp [lexeme, inorder]

end Expr

theorem Token.isOperator_of_isAdditive {op : Token} (hop : op.isAdditive) : op.isOperator := by
  simp [isOperator, hop]

theorem Level.isOperator {level : Level} {op : Token} (hop : level.isOp op) : op.isOperator := by
  cases level with
  | expression => exact Token.isOperator_of_isAdditive hop
  | term =>
    have hmultiplicative : op.isMultiplicative := hop
    simp [Token.isOperator, hmultiplicative]
  | factor => cases hop

/-- The lexemes without the parentheses among them. -/
def meaningful (lexemes : List Lexeme) : List Lexeme :=
  lexemes.filter fun lexeme => !lexeme.token.isParenthesis

section Meaningful

variable {lexeme : Lexeme} {lexemes firsts lasts : List Lexeme} {position : Nat}

theorem meaningful_cons (h : ¬ lexeme.token.isParenthesis) :
    meaningful (lexeme :: lexemes) = lexeme :: meaningful lexemes := by
  simp [meaningful, h]

theorem meaningful_of_isParenthesis (h : lexeme.token.isParenthesis) :
    meaningful (lexeme :: lexemes) = meaningful lexemes := by
  simp [meaningful, h]

theorem meaningful_append :
    meaningful (firsts ++ lasts) = meaningful firsts ++ meaningful lasts :=
  List.filter_append ..

theorem meaningful_group {start stop : Nat} :
    meaningful (⟨.lparen, start⟩ :: (lexemes ++ [⟨.rparen, stop⟩])) = meaningful lexemes := by
  simp [meaningful, Token.isParenthesis]

end Meaningful

namespace Derives

variable {level : Level} {lexemes : List Lexeme} {tree : Expr} {nest : Nat}

/-- The nodes of the tree of a phrase are its tokens, in their order and each at its
place; only the parentheses are left out. -/
theorem inorder_eq (h : Derives level lexemes tree nest) : tree.inorder = meaningful lexemes := by
  induction h with
  | integer value position => rfl
  | sign hop _ ih =>
    have hmeant := Token.not_isParenthesis_of_isOperator (Token.isOperator_of_isAdditive hop)
    rw [Expr.inorder, ih, meaningful_cons hmeant]
  | group _ ih => rw [ih, meaningful_group]
  | single _ _ ih => exact ih
  | operator _ _ hop _ ihl ihr =>
    have hmeant := Token.not_isParenthesis_of_isOperator (Level.isOperator hop)
    rw [Expr.inorder, ihl, ihr, meaningful_append, meaningful_cons hmeant]

theorem mem_of_mem_inorder (h : Derives level lexemes tree nest) {lexeme : Lexeme}
    (hlexeme : lexeme ∈ tree.inorder) : lexeme ∈ lexemes := by
  rw [h.inorder_eq] at hlexeme
  exact (List.mem_filter.mp hlexeme).1

/-- Each integer of a phrase is a leaf of its tree. -/
theorem literalCount_eq (h : Derives level lexemes tree nest) :
    tree.literalCount = lexemes.countP fun lexeme => lexeme.token.isInteger := by
  induction h with
  | integer value position => rfl
  | sign hop _ ih =>
    have hop := Token.not_isInteger_of_isOperator (Token.isOperator_of_isAdditive hop)
    simp [Expr.literalCount, ih, hop]
  | group _ ih => simp [ih, Token.isInteger]
  | single _ _ ih => exact ih
  | operator _ _ hop _ ihl ihr =>
    have hop := Token.not_isInteger_of_isOperator (Level.isOperator hop)
    simp [Expr.literalCount, ihl, ihr, hop]

/-- Only an operator makes a tree higher. -/
theorem depth_le (h : Derives level lexemes tree nest) :
    tree.depth ≤ 1 + lexemes.countP fun lexeme => lexeme.token.isOperator := by
  induction h with
  | integer value position => simp [Expr.depth]
  | sign hop _ ih =>
    simp only [Expr.depth, List.countP_cons, Token.isOperator_of_isAdditive hop, if_true]
    omega
  | group _ ih =>
    simp only [List.countP_cons, List.countP_append]
    omega
  | single _ _ ih => exact ih
  | operator _ _ hop _ ihl ihr =>
    simp only [Expr.depth, List.countP_append, List.countP_cons, Level.isOperator hop, if_true]
    omega

end Derives

end Abacus
