import Abacus.Proofs.Parser.Acceptance
import Abacus.Proofs.Parts
import Abacus.Proofs.Relocation

/-!
# Printing trees

Trees written as texts with no more parentheses than are needed.

* `Expr.WellFormed` — trees with the tokens that the parser gives them.
* `Expr.tokens`, `Expr.print` — the tokens of a tree, and the text of them with a
  space between any two.
* `Expr.nesting` — how many signs and parentheses stand around a factor there.
* `Expr.located` — the tree with each node at the place of its token in the text.
* `Token.exists_intercalate_eq` — that place is a number of bytes in the text.
* `Source.reads_spaced` — the text is read as its tokens.
* `Expr.derives_tokens` — the tokens are a phrase, and its tree is the one printed.
* `parse_print` — so the text is parsed as that tree.
-/

namespace Abacus

/-! ## Texts of tokens -/

namespace Token

/-- The bytes that some tokens take, each with a space after it. -/
def width : List Token → Nat
  | [] => 0
  | token :: tokens => token.literal.utf8ByteSize + 1 + width tokens

/-- Where the tokens of a text stand, the first of them at byte `offset`, if there
is a space between any two. -/
def spaced (offset : Nat) : List Token → List Lexeme
  | [] => []
  | token :: tokens => ⟨token, offset⟩ :: spaced (offset + (token.literal.utf8ByteSize + 1)) tokens

variable {offset : Nat} {token : Token} {tokens firsts lasts : List Token}

@[simp] theorem width_nil : width [] = 0 := rfl

@[simp] theorem width_cons :
    width (token :: tokens) = token.literal.utf8ByteSize + 1 + width tokens := rfl

@[simp] theorem width_append : width (firsts ++ lasts) = width firsts + width lasts := by
  induction firsts with
  | nil => simp
  | cons token firsts ih => simp [ih, Nat.add_assoc]

@[simp] theorem spaced_nil : spaced offset [] = [] := rfl

@[simp] theorem spaced_cons :
    spaced offset (token :: tokens) =
      ⟨token, offset⟩ :: spaced (offset + (token.literal.utf8ByteSize + 1)) tokens := rfl

@[simp] theorem spaced_append :
    spaced offset (firsts ++ lasts) =
      spaced offset firsts ++ spaced (offset + width firsts) lasts := by
  induction firsts generalizing offset with
  | nil => simp
  | cons token firsts ih => simp [ih, Nat.add_assoc]

theorem map_token_spaced (offset : Nat) (tokens : List Token) :
    (spaced offset tokens).map Lexeme.token = tokens := by
  induction tokens generalizing offset with
  | nil => rfl
  | cons token tokens ih => rw [spaced_cons, List.map_cons, ih]

/-- With a space between any two tokens, each stands behind the bytes that those before
it take. -/
theorem exists_intercalate_eq (firsts lasts : List Token) (token : Token) :
    ∃ front back, " ".intercalate ((firsts ++ token :: lasts).map literal) =
      front ++ token.literal ++ back ∧ front.utf8ByteSize = width firsts := by
  induction firsts with
  | nil =>
    cases lasts with
    | nil => exact ⟨"", "", by simp, rfl⟩
    | cons next lasts =>
      refine ⟨"", " " ++ " ".intercalate ((next :: lasts).map literal), ?_, rfl⟩
      rw [List.nil_append, List.map_cons, String.intercalate_cons_of_ne_nil (by simp),
        String.empty_append, String.append_assoc]
  | cons first firsts ih =>
    rcases ih with ⟨front, back, htext, hwidth⟩
    have hspace : " ".utf8ByteSize = 1 := rfl
    refine ⟨first.literal ++ " " ++ front, back, ?_, ?_⟩
    · rw [List.cons_append, List.map_cons, String.intercalate_cons_of_ne_nil (by simp), htext]
      simp only [String.append_assoc]
    · rw [String.utf8ByteSize_append, String.utf8ByteSize_append, hspace, hwidth, width_cons]

end Token

namespace Source

open Text (byteLength)

variable {tokens : List Token}

/-- Tokens with a space between any two are read one after another. -/
theorem reads_spaced (heof : ∀ token ∈ tokens, token ≠ .eof) (offset : Nat) :
    Reads offset ([' '].intercalate (tokens.map fun token => token.literal.toList))
      (Token.spaced offset tokens) := by
  induction tokens generalizing offset with
  | nil => exact Reads.nil
  | cons token tokens ih =>
    have hfirst : Reads offset token.literal.toList [⟨token, offset⟩] :=
      .literal (heof token (by simp))
    cases tokens with
    | nil => simpa using hfirst
    | cons next tokens =>
      have hsize : byteLength (token.literal.toList ++ [' ']) = token.literal.utf8ByteSize + 1 := by
        rw [Text.byteLength_append, Text.byteLength_toList]
        rfl
      -- The space is read with the token in front of it.
      have hblank : Reads (offset + byteLength token.literal.toList) [' '] [] :=
        .blanks (by simp [separators])
      have hfront := hfirst.append hblank (.of_first Bool.false_ne_true)
      have hrest := ih (fun other hother => heof other (by simp [hother]))
        (offset + byteLength (token.literal.toList ++ [' ']))
      have hall := hfront.append hrest (.of_last Bool.false_ne_true)
      rw [hsize] at hall
      rw [List.map_cons, List.map_cons, List.intercalate_cons_cons]
      exact hall

/-- Tokens with a space between any two, and nothing else, are read to the end of the
input. -/
theorem scanFrom_spaced (heof : ∀ token ∈ tokens, token ≠ .eof) (offset : Nat) :
    ∃ stop, scanFrom offset ([' '].intercalate (tokens.map fun token => token.literal.toList)) =
      ⟨Token.spaced offset tokens, .ok ⟨.eof, stop⟩⟩ :=
  ⟨_, reads_spaced heof offset⟩

end Source

/-! ## Texts of trees -/

namespace Token

/-- How strongly the operator of a node with two operands binds them. -/
def strength (op : Token) : Nat :=
  if op.isAdditive then 1 else 2

/-- The parenthesis in front of an operand, if it is needed. -/
def opening (needed : Bool) : List Token :=
  if needed then [.lparen] else []

/-- The tokens of an operand, in parentheses if they are needed. -/
def enclosed (needed : Bool) (tokens : List Token) : List Token :=
  if needed then .lparen :: (tokens ++ [.rparen]) else tokens

end Token

namespace Expr

/-- Every node has a token that the parser could have given it. -/
def WellFormed : Expr → Prop
  | literal token _ => token.kind = .integer
  | unary op operand _ => op.isAdditive ∧ operand.WellFormed
  | binary op left right _ =>
    (op.isAdditive ∨ op.isMultiplicative) ∧ left.WellFormed ∧ right.WellFormed

/-- How strongly a tree holds together: `+` and `-` between operands bind weakest,
then `*` and `/`, then signs and literals. -/
def strength : Expr → Nat
  | literal _ _ => 3
  | unary _ _ _ => 3
  | binary op _ _ _ => op.strength

/-- Whether the root stands between two operands. -/
def isBinary : Expr → Bool
  | binary _ _ _ _ => true
  | _ => false

/-- The tokens of a tree. A left operand is put in parentheses if it binds weaker
than the node, a right operand also if it binds as weakly, and the operand of a
sign if it has two operands itself. -/
def tokens : Expr → List Token
  | literal token _ => [token]
  | unary op operand _ => op :: Token.enclosed operand.isBinary operand.tokens
  | binary op left right _ =>
    Token.enclosed (left.strength < op.strength) left.tokens ++
      op :: Token.enclosed (right.strength ≤ op.strength) right.tokens

/-- A tree as text, with a space between any two tokens. -/
def print (tree : Expr) : String :=
  " ".intercalate (tree.tokens.map Token.literal)

/-- The greatest number of signs and parentheses around a factor in the text of a
tree. -/
def nesting : Expr → Nat
  | literal _ _ => 0
  | unary _ operand _ => operand.nesting + operand.isBinary.toNat + 1
  | binary op left right _ =>
    max (left.nesting + (decide (left.strength < op.strength)).toNat)
      (right.nesting + (decide (right.strength ≤ op.strength)).toNat)

/-- The tree with each node at the byte offset of its token, if the text of the
tree comes after the tokens `before`. -/
def located (before : List Token) : Expr → Expr
  | literal token _ => literal token (Token.width before)
  | unary op operand _ =>
    unary op (operand.located (before ++ op :: Token.opening operand.isBinary))
      (Token.width before)
  | binary op left right _ =>
    let front := before ++ Token.enclosed (left.strength < op.strength) left.tokens
    binary op (left.located (before ++ Token.opening (left.strength < op.strength)))
      (right.located (front ++ op :: Token.opening (right.strength ≤ op.strength)))
      (Token.width front)

theorem strength_pos (tree : Expr) : 1 ≤ tree.strength := by
  cases tree with
  | literal => simp [strength]
  | unary => simp [strength]
  | binary op =>
    simp only [strength, Token.strength]
    split <;> omega

/-- Wherever its text stands, a tree keeps all but its positions. -/
theorem relocate_located (tree : Expr) (before : List Token) :
    (tree.located before).relocate (fun _ => 0) = tree.relocate fun _ => 0 := by
  induction tree generalizing before with
  | literal => rfl
  | unary op operand position ih => simp only [located, relocate, ih]
  | binary op left right position ihl ihr => simp only [located, relocate, ihl, ihr]

theorem depth_located (tree : Expr) (before : List Token) :
    (tree.located before).depth = tree.depth := by
  have hsame := congrArg depth (tree.relocate_located before)
  rwa [depth_relocate, depth_relocate] at hsame

end Expr

/-- The levels of the grammar in the order of the strength of their operators. -/
def Level.strength : Level → Nat
  | expression => 1
  | term => 2
  | factor => 3

/-- A phrase is also a phrase of every level with weaker operators. -/
theorem Derives.weaken {level weaker : Level} {lexemes : List Lexeme} {tree : Expr} {nest : Nat}
    (h : Derives level lexemes tree nest) (hle : weaker.strength ≤ level.strength) :
    Derives weaker lexemes tree nest := by
  cases level with
  | expression =>
    cases weaker with
    | expression => exact h
    | _ => simp [Level.strength] at hle
  | term =>
    cases weaker with
    | expression => exact .single .expression h
    | term => exact h
    | factor => simp [Level.strength] at hle
  | factor =>
    cases weaker with
    | expression => exact h.expression_of_factor
    | term => exact .single .term h
    | factor => exact h

namespace Expr

/-- In parentheses an operand is a phrase of every level, and without them of those
levels that are no stronger than itself. -/
theorem derives_enclosed {operand : Expr}
    (hplain : ∀ before level, level.strength ≤ operand.strength →
      Derives level (Token.spaced (Token.width before) operand.tokens) (operand.located before)
        operand.nesting)
    (before : List Token) (level : Level) (needed : Bool)
    (hneeded : needed = false → level.strength ≤ operand.strength) :
    Derives level (Token.spaced (Token.width before) (Token.enclosed needed operand.tokens))
      (operand.located (before ++ Token.opening needed)) (operand.nesting + needed.toNat) := by
  cases needed with
  | false =>
    have hoperand := hplain before level (hneeded rfl)
    simpa [Token.enclosed, Token.opening] using hoperand
  | true =>
    have hinner := hplain (before ++ [.lparen]) .expression operand.strength_pos
    have hlevel : level.strength ≤ Level.factor.strength := by cases level <;> decide
    have hgroup (start stop : Nat) :
        Derives level (⟨.lparen, start⟩ ::
          (Token.spaced (Token.width (before ++ [.lparen])) operand.tokens ++ [⟨.rparen, stop⟩]))
          (operand.located (before ++ [.lparen])) (operand.nesting + 1) :=
      (Derives.group hinner).weaken hlevel
    simpa [Token.enclosed, Token.opening] using hgroup (Token.width before) _

/-- The operators of a node with two operands are those of a level. -/
theorem exists_level {op : Token} (hop : op.isAdditive ∨ op.isMultiplicative) :
    ∃ level below : Level, level.Over below ∧ level.isOp op ∧
      level.strength = op.strength ∧ below.strength = op.strength + 1 := by
  rcases hop with hop | hop
  · have hstrength : op.strength = 1 := if_pos hop
    exact ⟨.expression, .term, .expression, hop, hstrength.symm, by rw [hstrength]; rfl⟩
  · have hother : ¬ op.isAdditive := fun h => Level.Over.expression.not_isOp h hop
    have hstrength : op.strength = 2 := if_neg hother
    exact ⟨.term, .factor, .term, hop, hstrength.symm, by rw [hstrength]; rfl⟩

/-- The text of a tree is a phrase of the levels that are no stronger than the tree. -/
theorem derives_tokens {tree : Expr} (hwf : tree.WellFormed) (before : List Token) {level : Level}
    (hlevel : level.strength ≤ tree.strength) :
    Derives level (Token.spaced (Token.width before) tree.tokens) (tree.located before)
      tree.nesting := by
  induction tree generalizing before level with
  | literal token position =>
    cases token with
    | integer value => exact (Derives.integer value _).weaken hlevel
    | _ => cases hwf
  | unary op operand position ih =>
    rcases hwf with ⟨hop, hwf⟩
    -- The operand of a sign is a factor.
    have hneeded : operand.isBinary = false → Level.factor.strength ≤ operand.strength := by
      intro h
      cases operand with
      | binary => cases h
      | _ => exact Nat.le_refl 3
    have hoperand := derives_enclosed (fun _ _ => ih hwf _) (before ++ [op]) .factor
      operand.isBinary hneeded
    have hsign : Derives .factor (⟨op, Token.width before⟩ :: _) _ _ := .sign hop hoperand
    simpa [tokens, located, nesting] using hsign.weaken hlevel
  | binary op left right position ihl ihr =>
    rcases hwf with ⟨hop, hwfl, hwfr⟩
    rcases exists_level hop with ⟨own, below, hover, hisOp, hown, hbelow⟩
    let front := before ++ Token.enclosed (left.strength < op.strength) left.tokens
    -- Without parentheses the left operand is strong enough for the level of the
    -- operator, and the right operand for the level below.
    have hleft := derives_enclosed (fun _ _ => ihl hwfl _) before own
      (left.strength < op.strength) (by simp [hown])
    have hright := derives_enclosed (fun _ _ => ihr hwfr _) (front ++ [op]) below
      (right.strength ≤ op.strength) (by simp only [decide_eq_false_iff_not]; omega)
    have hnode : Derives own (_ ++ ⟨op, Token.width front⟩ :: _) _ _ :=
      .operator hover hleft hisOp hright
    have hweak : level.strength ≤ own.strength := by simpa [hown, strength] using hlevel
    simpa [tokens, located, nesting, front, Nat.add_assoc] using hnode.weaken hweak

/-- The text of a tree is an expression. -/
theorem derives_print {tree : Expr} (hwf : tree.WellFormed) :
    Derives .expression (Token.spaced 0 tree.tokens) (tree.located []) tree.nesting :=
  derives_tokens hwf [] tree.strength_pos

/-- No token in the text of a tree is the end of the input. -/
theorem ne_eof_of_mem_tokens {tree : Expr} (hwf : tree.WellFormed) :
    ∀ token ∈ tree.tokens, token ≠ .eof := by
  have hwalk := (derives_print hwf).walk 0
  intro token htoken
  rw [← Token.map_token_spaced 0 tree.tokens, List.mem_map] at htoken
  rcases htoken with ⟨lexeme, hlexeme, rfl⟩
  exact Point.ne_eof_of_walk hwalk lexeme hlexeme

end Expr

/-! ## Parsing -/

/-- The text of a tree, not too deep and not nested too deeply, is parsed as the tree,
with each node at the place of its token in the text: behind the bytes of the tokens
that stand before it. -/
theorem parse_print (tree : Expr) (hwf : tree.WellFormed) (hdepth : tree.depth ≤ 1024)
    (hnesting : tree.nesting ≤ 256) :
    parse (.ofSource tree.print) = .ok (tree.located []) ∧
      (tree.located []).relocate (fun _ => 0) = (tree.relocate fun _ => 0) ∧
      ∀ firsts token lasts, tree.tokens = firsts ++ token :: lasts →
        ∃ front back, tree.print = front ++ token.literal ++ back ∧
          front.utf8ByteSize = Token.width firsts := by
  refine ⟨?_, tree.relocate_located [], ?_⟩
  · rcases Source.scanFrom_spaced (Expr.ne_eof_of_mem_tokens hwf) 0 with ⟨stop, hscan⟩
    have hscan : Source.scan tree.print = ⟨Token.spaced 0 tree.tokens, .ok ⟨.eof, stop⟩⟩ := by
      rw [← hscan, Source.scan, Expr.print, String.toList_intercalate, List.map_map]
      rfl
    have hholds : (Feed.ofSource tree.print).Holds 0
        (Token.spaced 0 tree.tokens ++ [⟨.eof, stop⟩]) := by
      rw [Feed.ofSource, hscan]
      exact Feed.holds_followedBy _ _
    have hlow : (tree.located []).depth ≤ maxDepth := by rwa [Expr.depth_located]
    rw [parse, (Expr.derives_print hwf).parseFrom_run hnesting hlow hholds]
  · intro firsts token lasts htokens
    rw [Expr.print, htokens]
    exact Token.exists_intercalate_eq firsts lasts token

/-- The second difference keeps its parentheses, and so does the first under `*`. -/
theorem parse_print_differences :
    let difference (left right : Expr) := Expr.binary .minus left right 0
    let number (value : UInt64) := Expr.literal (.integer value) 0
    let tree := Expr.binary .times (difference (number 1) (difference (number 2) (number 30)))
      (.unary .minus (number 4) 0) 0
    tree.print = "( 1 - ( 2 - 30 ) ) * - 4" ∧
      parse (.ofSource "( 1 - ( 2 - 30 ) ) * - 4") =
        .ok (.binary .times
          (.binary .minus (.literal (.integer 1) 2)
            (.binary .minus (.literal (.integer 2) 8) (.literal (.integer 30) 12) 10) 4)
          (.unary .minus (.literal (.integer 4) 23) 21) 19) := by
  intro difference number tree
  have hprint : tree.print = "( 1 - ( 2 - 30 ) ) * - 4" := rfl
  have hwf : tree.WellFormed := by
    simp [tree, difference, number, Expr.WellFormed, Token.kind, Token.isAdditive,
      Token.isMultiplicative]
  have hparse := (parse_print tree hwf (by decide) (by decide)).1
  refine ⟨hprint, ?_⟩
  rw [← hprint, hparse, Except.ok.injEq]
  decide +kernel

end Abacus
