import Abacus.Proofs.Evaluation
import Abacus.Proofs.Grammar.Listing
import Abacus.Proofs.Interpretation
import Abacus.Proofs.Printing

/-!
# Flat expressions

Integers with operators between them, without signs and parentheses, can be
computed in one pass from left to right that builds no tree.

* `Flat`, `Flat.text` — a flat expression and its text.
* `Tally` — what the pass keeps: a sum in front of a pending `+` or `-`, and the
  product it has come to. `Flat.scan` is the whole pass.
* `Kept` — the invariant: the lexemes passed so far are phrases, and the tally has
  the values of their trees. `Kept.step` and `Kept.run` carry it to the end.
* `interpret_flat` — the pass computes the value of the text, or its error.
-/

namespace Abacus

/-! ## The pass -/

/-- An operator and the integer after it. -/
structure Flat.Step where
  op : Token
  value : UInt64
  isOp : op.isAdditive ∨ op.isMultiplicative

/-- An integer and steps from it to further ones. -/
structure Flat where
  first : UInt64
  steps : List Flat.Step

namespace Flat

/-- The tokens of a step. -/
def Step.tokens (step : Step) : List Token := [step.op, .integer step.value]

/-- The tokens of a flat expression. -/
def tokens (flat : Flat) : List Token :=
  .integer flat.first :: flat.steps.flatMap Step.tokens

/-- A flat expression as text, with a space between any two tokens. -/
def text (flat : Flat) : String :=
  " ".intercalate (flat.tokens.map Token.literal)

end Flat

/-- What is known in the middle of a flat expression. -/
structure Tally where
  /-- The value in front of the last `+` or `-`, and that operator. -/
  pending : Option (Wide × Lexeme)
  /-- The value of the factors after that operator. A first factor is still unsigned. -/
  product : Wide

namespace Tally

/-- The value of everything so far. -/
def total (tally : Tally) : Except EvalError Wide :=
  match tally.pending with
  | none => pure tally.product
  | some (sum, op) => do
    let result ← evalBinary op.token sum tally.product op.position
    pure (.ofResult result)

/-- One more operator and the integer after it: `*` and `/` go on with the product,
`+` and `-` wait for the next one. -/
def step (tally : Tally) (op : Lexeme) (value : UInt64) : Except EvalError Tally :=
  if op.token.isMultiplicative then do
    let result ← evalBinary op.token tally.product (.ofLiteral value) op.position
    pure { tally with product := .ofResult result }
  else do
    let sum ← tally.total
    pure ⟨some (sum, op), .ofLiteral value⟩

/-- All steps of a flat expression, the first of which stands at byte `offset`. -/
def run (offset : Nat) (tally : Tally) : List Flat.Step → Except EvalError Tally
  | [] => pure tally
  | step :: steps => do
    let tally ← tally.step ⟨step.op, offset⟩ step.value
    tally.run (offset + Token.width step.tokens) steps

/-- The value at the end. Without a `+` or `-` it is the product, which may be too large
only if it is the first integer by itself; that stands at the start of the text. -/
def finish (tally : Tally) : Except EvalError Int64 :=
  match tally.pending with
  | none => narrow tally.product 0
  | some (sum, op) => evalBinary op.token sum tally.product op.position

end Tally

/-- The value of a flat expression, computed in one pass over it. -/
def Flat.scan (flat : Flat) : Except EvalError Int64 := do
  let tally ← Tally.run (Token.width [.integer flat.first]) ⟨none, .ofLiteral flat.first⟩ flat.steps
  tally.finish

/-! ## The invariant -/

/-- The tally has the values of the phrases that were passed, or the pass has ended
with the error of the first of them that has none. -/
inductive Kept : List Lexeme → Except EvalError Tally → Prop where
  /-- Up to the first `+` or `-` there is one term. -/
  | term {lexemes : List Lexeme} {tree : Expr} (h : Derives .term lexemes tree 0) :
    Kept lexemes (tree.walk.outcome >>= fun product => pure ⟨none, product⟩)
  /-- After a `+` or `-` there is a term, and in front of it an expression. -/
  | sum {op : Token} {position : Nat} {lefts rights : List Lexeme} {left right : Expr}
    (hleft : Derives .expression lefts left 0) (hop : op.isAdditive)
    (hright : Derives .term rights right 0) :
    Kept (lefts ++ ⟨op, position⟩ :: rights)
      (left.walk.outcome >>= fun sum => right.walk.outcome >>= fun product =>
        pure ⟨some (sum, ⟨op, position⟩), product⟩)

namespace Kept

variable {lexemes : List Lexeme} {outcome : Except EvalError Tally} {op : Token}
  {position integer : Nat} {value : UInt64}

/-- Everything that was passed is an expression with the total as its value. -/
theorem total (h : Kept lexemes outcome) :
    ∃ tree, Derives .expression lexemes tree 0 ∧ tree.walk.outcome = outcome >>= Tally.total := by
  cases h with
  | @term _ tree hterm =>
    refine ⟨tree, .single .expression hterm, ?_⟩
    simp [Tally.total]
  | @sum op position _ _ left right hleft hop hright =>
    refine ⟨.binary op left right position, .operator .expression hleft hop hright, ?_⟩
    simp [Expr.outcome_walk_binary, Tally.total]

theorem outcome_walk_literal :
    (Expr.literal (.integer value) position).walk.outcome = pure (.ofLiteral value) :=
  rfl

/-- A term goes on with an operator of its level and an integer. -/
theorem derives_longer {tree : Expr} (hterm : Derives .term lexemes tree 0)
    (hop : op.isMultiplicative) (position integer : Nat) (value : UInt64) :
    Derives .term (lexemes ++ [⟨op, position⟩, ⟨.integer value, integer⟩])
      (.binary op tree (.literal (.integer value) integer) position) 0 :=
  .operator .term hterm hop (.integer value integer)

/-- One step keeps the invariant. -/
theorem step (h : Kept lexemes outcome) (offset : Nat) (step : Flat.Step) :
    Kept (lexemes ++ Token.spaced offset step.tokens)
      (outcome >>= fun tally => tally.step ⟨step.op, offset⟩ step.value) := by
  obtain ⟨op, value, hop⟩ := step
  simp only [Flat.Step.tokens, Token.spaced_cons, Token.spaced_nil]
  generalize offset + (op.literal.utf8ByteSize + 1) = integer
  by_cases hmultiplicative : op.isMultiplicative
  · -- The term at the end becomes longer.
    cases h with
    | term hterm =>
      have hlonger := Kept.term (derives_longer hterm hmultiplicative offset integer value)
      simpa [Tally.step, hmultiplicative, Expr.outcome_walk_binary, outcome_walk_literal]
        using hlonger
    | @sum _ position _ _ _ _ hleft hadd hright =>
      have hlonger := @Kept.sum _ position _ _ _ _ hleft hadd
        (derives_longer hright hmultiplicative offset integer value)
      simpa [Tally.step, hmultiplicative, Expr.outcome_walk_binary, outcome_walk_literal]
        using hlonger
  · -- What was passed stands in front of the operator, and the integer is a new term.
    have hadd : op.isAdditive := hop.resolve_right hmultiplicative
    have hinteger : Derives .term [⟨.integer value, integer⟩] _ 0 :=
      .single .term (.integer value integer)
    obtain ⟨tree, hderives, hwalk⟩ := h.total
    have hnext := @Kept.sum _ offset _ _ _ _ hderives hadd hinteger
    simpa [Tally.step, hmultiplicative, hwalk, outcome_walk_literal] using hnext

/-- All steps of a pass together keep the invariant. -/
theorem run (h : Kept lexemes outcome) (offset : Nat) (steps : List Flat.Step) :
    Kept (lexemes ++ Token.spaced offset (steps.flatMap Flat.Step.tokens))
      (outcome >>= fun tally => tally.run offset steps) := by
  induction steps generalizing lexemes outcome offset with
  | nil => simpa [Tally.run] using h
  | cons step steps ih =>
    have hnext := ih (h.step offset step) (offset + Token.width step.tokens)
    simpa [Tally.run] using hnext

/-- A lone literal is the first lexeme, if that is an integer. -/
theorem position_of_isLiteral {level : Level} {tree : Expr} {nest : Nat}
    (h : Derives level lexemes tree nest) (htree : tree.IsLiteral)
    (hstart : ∀ lexeme ∈ lexemes.head?, lexeme.token.isInteger ∧ lexeme.position = 0) :
    tree.position = 0 := by
  cases tree with
  | literal token position =>
    have hlisted : [⟨token, position⟩] = meaningful lexemes := h.inorder_eq
    cases lexemes with
    | nil => cases hlisted
    | cons first rest =>
      obtain ⟨hinteger, hzero⟩ := hstart first rfl
      have hfirst : ¬ first.token.isParenthesis := by
        intro hparenthesis
        cases hkind : first.token <;> simp_all [Token.isInteger, Token.isParenthesis]
      rw [meaningful_cons hfirst] at hlisted
      obtain ⟨rfl, -⟩ := List.cons.inj hlisted
      exact hzero
  | _ => cases htree

/-- At the end the tally has the value of the tree. Only a tree of one literal can be too
large for that, and it stands where the text starts. -/
theorem finish (h : Kept lexemes outcome)
    (hstart : ∀ lexeme ∈ lexemes.head?, lexeme.token.isInteger ∧ lexeme.position = 0) :
    ∃ tree, Derives .expression lexemes tree 0 ∧ tree.evaluate = outcome >>= Tally.finish := by
  cases h with
  | @term _ tree hterm =>
    refine ⟨tree, .single .expression hterm, ?_⟩
    rw [Expr.evaluate_eq]
    rcases hwalk : tree.walk.outcome with error | value
    · rfl
    · show exact value.toInt tree.position = narrow value 0
      rw [narrow_eq]
      by_cases htree : tree.IsLiteral
      · rw [position_of_isLiteral hterm htree hstart]
      · have hfits := Expr.fits_of_walk hwalk htree
        rw [exact, exact, if_pos hfits, if_pos hfits]
  | @sum op position _ _ left right hleft hop hright =>
    refine ⟨.binary op left right position, .operator .expression hleft hop hright, ?_⟩
    simp [Expr.evaluate_binary, Tally.finish]

end Kept

/-! ## The value of the text -/

/-- Tokens with a space between any two are read as they are. -/
theorem Source.scan_intercalate {tokens : List Token} (heof : ∀ token ∈ tokens, token ≠ .eof) :
    let text := " ".intercalate (tokens.map Token.literal)
    scan text = ⟨Token.spaced 0 tokens, .ok ⟨.eof, text.utf8ByteSize⟩⟩ := by
  intro text
  have hchars : text.toList = [' '].intercalate (tokens.map fun token => token.literal.toList) := by
    rw [String.toList_intercalate, List.map_map]
    rfl
  have hread : Reads 0 text.toList (Token.spaced 0 tokens) := by
    rw [hchars]
    exact reads_spaced heof 0
  rwa [Reads, Nat.zero_add, Text.byteLength_toList] at hread

namespace Flat

variable (flat : Flat)

/-- There are only integers and operators in a flat expression. -/
theorem ne_eof_of_mem_tokens : ∀ token ∈ flat.tokens, token ≠ .eof := by
  intro token htoken
  rw [tokens, List.mem_cons, List.mem_flatMap] at htoken
  rcases htoken with rfl | ⟨⟨op, value, hop⟩, -, htoken⟩
  · exact Token.noConfusion
  · simp only [Step.tokens, List.mem_cons, List.not_mem_nil, or_false] at htoken
    rcases htoken with rfl | rfl
    · rintro rfl
      simp [Token.isAdditive, Token.isMultiplicative] at hop
    · exact Token.noConfusion

/-- Each step has one operator. -/
theorem countP_isOperator (offset : Nat) (steps : List Step) :
    ((Token.spaced offset (steps.flatMap Step.tokens)).countP fun lexeme =>
      lexeme.token.isOperator) = steps.length := by
  induction steps generalizing offset with
  | nil => rfl
  | cons step steps ih =>
    have hop : step.op.isOperator := by
      rcases step.isOp with h | h <;> simp [Token.isOperator, h]
    have hinteger : (Token.integer step.value).isOperator = false := rfl
    simp [Step.tokens, ih, hop, hinteger]

/-- A flat expression is an expression, and the pass computes its value. -/
theorem exists_expresses :
    ∃ lexemes tree, Source.Expresses flat.text lexemes tree 0 ∧
      tree.depth ≤ 1 + flat.steps.length ∧ tree.evaluate = flat.scan := by
  let start : Lexeme := ⟨.integer flat.first, 0⟩
  let offset := Token.width [.integer flat.first]
  have hlexemes : Token.spaced 0 flat.tokens =
      [start] ++ Token.spaced offset (flat.steps.flatMap Step.tokens) := by
    simp [tokens, start, offset]
  have hfirst : Derives .term [start] _ 0 := .single .term (.integer flat.first 0)
  have hkept := (Kept.term hfirst).run offset flat.steps
  rw [← hlexemes] at hkept
  obtain ⟨tree, hderives, hvalue⟩ := hkept.finish (by simp [hlexemes, start, Token.isInteger])
  refine ⟨_, tree, ⟨Source.scan_intercalate flat.ne_eof_of_mem_tokens, hderives⟩, ?_, ?_⟩
  · have hdepth := hderives.depth_le
    have hstart : start.token.isOperator = false := rfl
    rw [hlexemes, List.countP_append, countP_isOperator] at hdepth
    simpa [hstart] using hdepth
  · rw [hvalue]
    rfl

end Flat

/-- A flat expression with at most 1023 operators has the value that one pass from left
to right computes, or the same error at the same place. -/
theorem interpret_flat (flat : Flat) (hlength : flat.steps.length ≤ 1023) :
    interpret flat.text = flat.scan.mapError Error.eval := by
  obtain ⟨lexemes, tree, hexpresses, hdepth, hvalue⟩ := flat.exists_expresses
  have hlow : tree.depth ≤ maxDepth := by
    unfold maxDepth
    omega
  rw [hexpresses.interpret_source (Nat.zero_le _) hlow, hvalue]

/-- The quotient comes before the difference, and the zero divisor is reported before the
product that is too large. -/
theorem interpret_flat_zero_divisor :
    let flat : Flat := ⟨7, [⟨.minus, 8, by decide⟩, ⟨.divide, 0, by decide⟩,
      ⟨.times, 18446744073709551615, by decide⟩, ⟨.plus, 1, by decide⟩]⟩
    flat.text = "7 - 8 / 0 * 18446744073709551615 + 1" ∧ flat.steps.length ≤ 1023 ∧
      interpret flat.text = .error (.eval (.divisionByZero 6)) := by
  intro flat
  have htext : flat.text = "7 - 8 / 0 * 18446744073709551615 + 1" := by decide +kernel
  have hlength : flat.steps.length ≤ 1023 := by decide
  have hscan : flat.scan = .error (.divisionByZero 6) := by
    decide +kernel
  refine ⟨htext, hlength, ?_⟩
  rw [interpret_flat flat hlength, hscan]
  rfl

end Abacus
