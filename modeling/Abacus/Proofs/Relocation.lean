import Abacus.Interpret

/-!
# Positions moved

Every stage carries positions along and none looks at them.

* `Lexeme.relocate`, `LexError.relocate`, …, `Error.relocate` — the same with
  every position `p` replaced by `f p`.
* `Parser.Moves` — one parser does on moved positions what another does on the
  given ones; sequences and choices of such parsers are such parsers.
* `parse_relocate`, `Expr.evaluate_relocate`, `interpret_relocate` — the stages
  on moved positions.
-/

namespace Abacus

variable {f : Nat → Nat}

/-! ## Moved data -/

def Lexeme.relocate (f : Nat → Nat) (lexeme : Lexeme) : Lexeme :=
  { lexeme with position := f lexeme.position }

def LexError.relocate (f : Nat → Nat) : LexError → LexError
  | .unexpectedCharacter character position => .unexpectedCharacter character (f position)
  | .literalTooLarge literal position => .literalTooLarge literal (f position)

def ParseError.relocate (f : Nat → Nat) : ParseError → ParseError
  | .unexpectedToken expected found position => .unexpectedToken expected found (f position)
  | .unexpectedTrailingTokens found position => .unexpectedTrailingTokens found (f position)
  | .nestingTooDeep position => .nestingTooDeep (f position)
  | .unexpectedEndOfInput => .unexpectedEndOfInput
  | .lexical error => .lexical (error.relocate f)

def EvalError.relocate (f : Nat → Nat) : EvalError → EvalError
  | .divisionByZero position => .divisionByZero (f position)
  | .overflow position => .overflow (f position)
  | .internal details position => .internal details (f position)

def Error.relocate (f : Nat → Nat) : Error → Error
  | .lex error => .lex (error.relocate f)
  | .parse error => .parse (error.relocate f)
  | .eval error => .eval (error.relocate f)

def Item.relocate (f : Nat → Nat) : Item → Item
  | .ok lexeme => .ok (lexeme.relocate f)
  | .error error => .error (error.relocate f)

def Feed.relocate (f : Nat → Nat) (feed : Feed) : Feed where
  item n := (feed.item n).map (Item.relocate f)
  ended n h := by
    rw [Option.map_eq_none_iff] at h ⊢
    exact feed.ended n h

def Cursor.relocate (f : Nat → Nat) (cursor : Cursor) : Cursor :=
  { cursor with eaten := cursor.eaten.map (Lexeme.relocate f) }

def Expr.relocate (f : Nat → Nat) : Expr → Expr
  | literal token position => literal token (f position)
  | unary op operand position => unary op (operand.relocate f) (f position)
  | binary op left right position =>
    binary op (left.relocate f) (right.relocate f) (f position)

@[simp] theorem Expr.depth_relocate (tree : Expr) : (tree.relocate f).depth = tree.depth := by
  induction tree with
  | literal token position => rfl
  | unary op operand position ih => simp only [relocate, depth, ih]
  | binary op left right position ihl ihr => simp only [relocate, depth, ihl, ihr]

@[simp] theorem Expr.position_relocate (tree : Expr) :
    (tree.relocate f).position = f tree.position := by
  cases tree <;> rfl

@[simp] theorem Cursor.relocate_startingAt (start : Nat) :
    (startingAt start).relocate f = startingAt start := by
  simp [relocate, startingAt]

theorem Cursor.relocate_record (cursor : Cursor) (lexeme : Lexeme) :
    (cursor.relocate f).record (lexeme.relocate f) = (cursor.record lexeme).relocate f := by
  simp [relocate, record]

/-- A feed is moved with its lexemes and its tail. -/
theorem Feed.relocate_followedBy (lexemes : List Lexeme) (tail : Item) :
    (followedBy lexemes.toArray tail).relocate f =
      followedBy (lexemes.map (Lexeme.relocate f)).toArray (tail.relocate f) := by
  have hitem : ((followedBy lexemes.toArray tail).relocate f).item =
      (followedBy (lexemes.map (Lexeme.relocate f)).toArray (tail.relocate f)).item := by
    funext n
    simp only [relocate, followedBy, item_endless, List.getElem?_toArray, List.getElem?_map,
      Option.map_some]
    cases lexemes[n]? <;> rfl
  cases hleft : (followedBy lexemes.toArray tail).relocate f
  cases hright : followedBy (lexemes.map (Lexeme.relocate f)).toArray (tail.relocate f)
  rw [hleft, hright] at hitem
  cases hitem
  rfl

/-! ## Parsers -/

namespace Parser

variable {α β γ δ : Type}

/-- On moved positions `q` does what `p` does on the given ones; the positions
in its result are moved by `g`. -/
def Moves (f : Nat → Nat) (g : α → β) (p : Parser α) (q : Parser β) : Prop :=
  ∀ feed cursor, q (feed.relocate f) (cursor.relocate f) =
    (((p feed cursor).1.map g).mapError (ParseError.relocate f),
      (p feed cursor).2.relocate f)

namespace Moves

variable {g : α → β} {k : γ → δ} {p p' : Parser α} {q q' : Parser β}

theorem pure (a : α) : Moves f g (pure a) (pure (g a)) :=
  fun _ _ => rfl

theorem fail (error : ParseError) : Moves f g (fail error) (fail (error.relocate f)) :=
  fun _ _ => rfl

theorem bind {next : α → Parser γ} {next' : β → Parser δ} (hfirst : Moves f g p q)
    (hnext : ∀ a, Moves f k (next a) (next' (g a))) : Moves f k (p >>= next) (q >>= next') := by
  intro feed cursor
  have hq := hfirst feed cursor
  rcases hp : p feed cursor with ⟨error | a, final⟩
  · rw [hp] at hq
    rw [bind_run, bind_run, hp, hq]
    rfl
  · rw [hp] at hq
    rw [bind_run, bind_run, hp, hq]
    exact hnext a feed final

/-- A choice between parsers moves positions if they do. -/
theorem ite {c : Prop} [Decidable c] (hthen : Moves f g p q) (helse : Moves f g p' q') :
    Moves f g (if c then p else p') (if c then q else q') := by
  split
  · exact hthen
  · exact helse

theorem peek : Moves f (Lexeme.relocate f) peek peek := by
  intro feed cursor
  have hitem : (feed.relocate f).item (cursor.relocate f).next =
      (feed.item cursor.next).map (Item.relocate f) := rfl
  unfold Parser.peek
  rw [hitem]
  rcases feed.item cursor.next with _ | _ | _ <;> rfl

theorem skip : Moves f id skip skip :=
  fun _ _ => rfl

theorem record (lexeme : Lexeme) :
    Moves f id (record lexeme) (record (lexeme.relocate f)) := by
  intro feed cursor
  rw [record_run, record_run, Cursor.relocate_record]
  rfl

theorem eat (expected : List Token.Kind) :
    Moves f (Lexeme.relocate f) (eat expected) (eat expected) := by
  refine .bind .peek ?_
  intro lexeme
  -- The kind of a lexeme does not move, so both sides eat it or both fail.
  have hused : Moves f (Lexeme.relocate f)
      (do Parser.skip; Parser.record lexeme; Pure.pure lexeme)
      (do Parser.skip; Parser.record (lexeme.relocate f); Pure.pure (lexeme.relocate f)) := by
    refine .bind .skip ?_
    intro _
    exact .bind (.record lexeme) fun _ => .pure lexeme
  exact .ite hused (.fail _)

variable {operand : Parser Expr} {isOp : Token → Bool}

/-- The height of what was read does not move. -/
theorem chain (hoperand : Moves f (Expr.relocate f) operand operand) (height : Nat) (left : Expr) :
    Moves f (Expr.relocate f) (chain isOp operand height left)
      (chain isOp operand height (left.relocate f)) := by
  -- On the height that is left, as the chain itself.
  induction hturns : maxDepth - height using Nat.strongRecOn generalizing height left with
  | ind turns ih =>
  subst hturns
  rw [chain_eq, chain_eq]
  refine .bind .peek ?_
  intro lexeme
  refine .ite (.bind .skip fun _ => .bind hoperand ?_) (.pure left)
  intro right
  simp only [Expr.depth_relocate]
  by_cases hhigh : maxDepth < 1 + max height right.depth
  · rw [if_pos hhigh, if_pos hhigh]
    exact .fail _
  · rw [if_neg hhigh, if_neg hhigh]
    exact ih _ (by omega) _ (.binary lexeme.token left right lexeme.position) rfl

theorem level (hoperand : Moves f (Expr.relocate f) operand operand) :
    Moves f (Expr.relocate f) (level isOp operand) (level isOp operand) := by
  rw [level_eq]
  refine .bind hoperand ?_
  intro left
  rw [Expr.depth_relocate]
  exact .chain hoperand left.depth left

theorem factor (room : Nat) : Moves f (Expr.relocate f) (factor room) (factor room) := by
  induction room with
  | zero => exact .bind .peek fun _ => .fail _
  | succ room ih =>
    refine .bind .peek ?_
    intro lexeme
    refine .ite (.bind .skip fun _ => .bind ih ?_) (.bind (.eat _) ?_)
    · -- A sign and the factor after it.
      intro operand
      rw [Expr.depth_relocate]
      exact .ite (.fail _) (.pure (Expr.unary lexeme.token operand lexeme.position))
    · -- An integer, or an expression between parentheses.
      intro first
      have hgroup : Moves f (Expr.relocate f)
          (do let tree ← sum (Parser.factor room); let _ ← Parser.eat [.rparen]; Pure.pure tree)
          (do let tree ← sum (Parser.factor room); let _ ← Parser.eat [.rparen]; Pure.pure tree) :=
        .bind (.level (.level ih)) fun tree => .bind (.eat _) fun _ => .pure tree
      exact .ite (.pure (Expr.literal first.token first.position)) hgroup

theorem whole : Moves f (Expr.relocate f) whole whole := by
  have hexpression : Moves f (Expr.relocate f) (expression 0) (expression 0) :=
    .level (.level (.factor _))
  refine .bind hexpression ?_
  intro tree
  exact .bind .peek fun lexeme => .ite (.pure tree) (.fail _)

end Moves

end Parser

/-- A moved feed has a moved tree. -/
theorem parse_relocate (feed : Feed) :
    parse (feed.relocate f) =
      ((parse feed).map (Expr.relocate f)).mapError (ParseError.relocate f) := by
  have hmoves := Parser.Moves.whole (f := f) feed (.startingAt 0)
  rw [Cursor.relocate_startingAt] at hmoves
  rw [parse, parse, parseFrom, parseFrom, hmoves]

/-! ## Values -/

theorem narrow_relocate (value : Wide) (position : Nat) :
    narrow value (f position) = (narrow value position).mapError (EvalError.relocate f) := by
  unfold narrow
  split <;> rfl

theorem floorDiv_relocate (left right : Wide) (position : Nat) :
    floorDiv left right (f position) =
      (floorDiv left right position).mapError (EvalError.relocate f) := by
  unfold floorDiv
  by_cases hzero : right = 0
  · rw [if_pos hzero, if_pos hzero]
    rfl
  rw [if_neg hzero, if_neg hzero]
  rcases left.quot? right with _ | quotient
  · rfl
  · -- Rounded down or not, the quotient is narrowed.
    dsimp only
    split <;> exact narrow_relocate ..

theorem evalUnary_relocate (op : Token) (value : Wide) (position : Nat) :
    evalUnary op value (f position) =
      (evalUnary op value position).mapError (EvalError.relocate f) := by
  cases op with
  | plus | minus => exact narrow_relocate ..
  | _ => rfl

theorem evalBinary_relocate (op : Token) (left right : Wide) (position : Nat) :
    evalBinary op left right (f position) =
      (evalBinary op left right position).mapError (EvalError.relocate f) := by
  have hexact (value : Option Wide) :
      narrow? value (f position) =
        (narrow? value position).mapError (EvalError.relocate f) := by
    rcases value with _ | value
    · rfl
    · exact narrow_relocate ..
  cases op with
  | plus | minus | times => exact hexact _
  | divide => exact floorDiv_relocate ..
  | _ => rfl

/-- Errors move in a sequence of walks if they do in both. -/
theorem Walk.outcome_bind_relocate {α β : Type} {walk walk' : Walk α} {next next' : α → Walk β}
    (hfirst : walk'.outcome = walk.outcome.mapError (EvalError.relocate f))
    (hnext : ∀ a, (next' a).outcome = (next a).outcome.mapError (EvalError.relocate f)) :
    (walk' >>= next').outcome = (walk >>= next).outcome.mapError (EvalError.relocate f) := by
  rw [outcome_bind, outcome_bind, hfirst]
  rcases walk.outcome with error | a
  · rfl
  · exact hnext a

namespace Expr

/-- The walk of a moved tree has the same value, or the same error elsewhere. -/
theorem walk_relocate (tree : Expr) :
    (tree.relocate f).walk.outcome = tree.walk.outcome.mapError (EvalError.relocate f) := by
  induction tree with
  | literal token position =>
    cases token <;> rfl
  | unary op operand position ih =>
    refine Walk.outcome_bind_relocate ih ?_
    intro value
    rw [Walk.outcome_visit, Walk.outcome_visit, evalUnary_relocate]
    cases evalUnary op value position <;> rfl
  | binary op left right position ihl ihr =>
    refine Walk.outcome_bind_relocate ihl ?_
    intro leftValue
    refine Walk.outcome_bind_relocate ihr ?_
    intro rightValue
    rw [Walk.outcome_visit, Walk.outcome_visit, evalBinary_relocate]
    cases evalBinary op leftValue rightValue position <;> rfl

theorem evaluate_relocate (tree : Expr) :
    (tree.relocate f).evaluate = tree.evaluate.mapError (EvalError.relocate f) := by
  refine Walk.outcome_bind_relocate tree.walk_relocate ?_
  intro value
  rw [position_relocate]
  exact narrow_relocate ..

end Expr

/-- A text that is read as another one with its positions moved has the same
value, or the same error elsewhere. -/
theorem interpret_relocate {source moved : String}
    (h : Feed.ofSource moved = (Feed.ofSource source).relocate f) :
    interpret moved = (interpret source).mapError (Error.relocate f) := by
  have hmoved := parse_relocate (f := f) (.ofSource source)
  rw [interpret_eq, interpret_eq, h]
  rcases hparse : parse (.ofSource source) with error | tree
  · -- The error of the parser, which may be one of the text.
    rw [hparse] at hmoved
    rw [hmoved]
    cases error <;> rfl
  · rw [hparse] at hmoved
    have htree : parse ((Feed.ofSource source).relocate f) = .ok (tree.relocate f) := hmoved
    rw [htree]
    dsimp only
    rw [Expr.evaluate_relocate]
    cases tree.evaluate <;> rfl

end Abacus
