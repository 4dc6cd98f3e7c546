import Abacus.Proofs.Parser.Run

/-!
# The parsers without their limits

The parsers once more, with a switch for the two limits. Without them a parser need
not end on a feed that does not, so it is a computation of another kind.

* `Parser.Partial` — a computation that reads a feed and may go on for ever.
* `Level.phrase`, `Level.phraseRest` — the parsers of all levels; `limited` says
  whether the two limits hold.
* `Parser.Agrees` — a computation does what a parser does, perhaps but for the limits.
* `Level.agrees` — with the limits switched on the parsers are those of the grammar's
  levels; switched off, or met later, they do the same wherever no limit is met.
-/

namespace Abacus

namespace Parser

/-! ## Computations that may not end -/

/-- A computation that reads a feed. It gives `none` if it goes on for ever. -/
abbrev Partial (α : Type) : Type :=
  ReaderT Feed (ExceptT ParseError (StateT Cursor Option)) α

/-- A parser is a computation that always ends. -/
def ending {α : Type} (p : Parser α) : Partial α :=
  fun feed cursor => some (p feed cursor)

/-- Stops at the position if the limits hold and this one is exceeded. -/
def limit (limited : Bool) (most actual position : Nat) : Partial Unit :=
  if limited ∧ most < actual then
    (fail (.nestingTooDeep position) : Parser Unit).ending
  else
    pure ()

end Parser

namespace Level

mutual

/-- A phrase of the level inside `depth` signs and parentheses. -/
def phrase (limited : Bool) (depth : Nat) : Level → Parser.Partial Expr
  | expression => do
    let left ← term |>.phrase limited depth
    expression |>.phraseRest limited depth term left
  | term => do
    let left ← factor |>.phrase limited depth
    term |>.phraseRest limited depth factor left
  | factor => do
    let lexeme ← Parser.peek.ending
    Parser.limit limited maxNesting depth lexeme.position
    if lexeme.token.isAdditive then
      Parser.skip.ending
      let operand ← factor |>.phrase limited (depth + 1)
      Parser.limit limited maxDepth (1 + operand.depth) lexeme.position
      pure (.unary lexeme.token operand lexeme.position)
    else
      let first ← (Parser.eat [.integer, .lparen]).ending
      if first.token.kind = .integer then
        pure (.literal first.token first.position)
      else
        let tree ← expression |>.phrase limited (depth + 1)
        let _ ← (Parser.eat [.rparen]).ending
        pure tree
partial_fixpoint

/-- Reads on after a phrase of the level with the tree `left`, as long as operators of
the level come next. -/
def phraseRest (limited : Bool) (depth : Nat) (level below : Level) (left : Expr) :
    Parser.Partial Expr := do
  let lexeme ← Parser.peek.ending
  if level.isOp lexeme.token then
    Parser.skip.ending
    let right ← below |>.phrase limited depth
    Parser.limit limited maxDepth (1 + max left.depth right.depth) lexeme.position
    level |>.phraseRest limited depth below (.binary lexeme.token left right lexeme.position)
  else
    pure left
partial_fixpoint

end

/-- Without the limits, too, a phrase is an operand and what is read on after it. -/
theorem Over.phrase_eq {level below : Level} (hover : level.Over below) (limited : Bool)
    (depth : Nat) :
    level.phrase limited depth =
      below.phrase limited depth >>= fun left => level.phraseRest limited depth below left := by
  cases hover <;> rw [phrase]

end Level

namespace Parser

variable {α β : Type} {feed : Feed} {cursor : Cursor}

namespace Partial

theorem bind_run (q : Partial α) (g : α → Partial β) (feed : Feed) (cursor : Cursor) :
    (q >>= g) feed cursor =
      match q feed cursor with
      | some (.ok a, next) => g a feed next
      | some (.error error, next) => some (.error error, next)
      | none => none := by
  have hrun : (q >>= g) feed cursor =
      (q feed cursor >>= fun outcome => ExceptT.bindCont (fun a => g a feed) outcome.1 outcome.2) :=
    rfl
  rw [hrun]
  rcases q feed cursor with _ | ⟨_ | _, _⟩ <;> rfl

end Partial

theorem limit_bind_of_le {limited : Bool} {most actual position : Nat} {g : Unit → Partial α}
    (h : limited → actual ≤ most) : limit limited most actual position >>= g = g () := by
  have hpass : ¬ (limited ∧ most < actual) := fun hboth => Nat.not_lt.mpr (h hboth.1) hboth.2
  rw [limit, if_neg hpass, pure_bind]

/-! ## Agreement -/

/-- The second computation does what the first does. If `exact` does not hold, it may
do something else where the first stops at a limit. -/
def Agrees (exact : Prop) (p : Parser α) (q : Partial α) : Prop :=
  ∀ feed cursor, q feed cursor = some (p feed cursor) ∨
    ¬ exact ∧ ∃ position, (p feed cursor).1 = .error (.nestingTooDeep position)

namespace Agrees

variable {exact : Prop} {p p' : Parser α} {q q' : Partial α} {f : α → Parser β}
  {g : α → Partial β} {limited : Bool} {most actual position : Nat}

theorem ending (p : Parser α) : Agrees exact p p.ending :=
  fun _ _ => .inl rfl

theorem pure (a : α) : Agrees exact (pure a) (pure a) :=
  fun _ _ => .inl rfl

theorem bind (hfirst : Agrees exact p q) (hnext : ∀ a, Agrees exact (f a) (g a)) :
    Agrees exact (p >>= f) (q >>= g) := by
  intro feed cursor
  rw [Partial.bind_run, bind_run]
  rcases hfirst feed cursor with hsame | ⟨hexact, position, hlimit⟩
  · rw [hsame]
    rcases p feed cursor with ⟨error | a, next⟩
    · exact .inl rfl
    · exact hnext a feed next
  · right
    rcases hrun : p feed cursor with ⟨error | a, next⟩
    · rw [hrun] at hlimit
      obtain rfl : error = .nestingTooDeep position := Except.error.inj hlimit
      exact ⟨hexact, position, rfl⟩
    · rw [hrun] at hlimit
      cases hlimit

theorem ite {c : Prop} [Decidable c] (hthen : Agrees exact p q) (helse : Agrees exact p' q') :
    Agrees exact (if c then p else p') (if c then q else q') := by
  split
  · exact hthen
  · exact helse

/-- A computation that stops at a limit may agree with one that goes on there. -/
theorem exceeded {g : Unit → Partial α} (h : exact → limited = true ∧ most < actual) :
    Agrees exact (fail (.nestingTooDeep position)) (limit limited most actual position >>= g) := by
  intro feed cursor
  by_cases hexact : exact
  · left
    rw [limit, if_pos (h hexact)]
    rfl
  · exact .inr ⟨hexact, position, rfl⟩

/-- A limit that is not exceeded does not keep two computations from agreeing. -/
theorem passed {g : Unit → Partial α} (hpass : limited → actual ≤ most)
    (h : Agrees exact p (g ())) : Agrees exact p (limit limited most actual position >>= g) := by
  rw [limit_bind_of_le hpass]
  exact h

end Agrees

end Parser

namespace Level

open Abacus.Parser (Agrees)

variable {exact : Prop} {limited : Bool} {room depth less : Nat} {level below : Level}

/-- If the operands of a level are read alike, so is what comes after a phrase. -/
theorem rest_agrees (hover : level.Over below) (hexact : exact → limited = true)
    (hbelow : Agrees exact (below.parser room) (below.phrase limited less)) (left : Expr) :
    Agrees exact (level.rest room left) (level.phraseRest limited less below left) := by
  -- The height grows with every turn, up to the limit.
  induction hturns : maxDepth - left.depth using Nat.strongRecOn generalizing left with
  | ind turns ih =>
  subst hturns
  rw [hover.rest_eq, Parser.chain_eq, phraseRest]
  refine .bind (.ending Parser.peek) ?_
  intro lexeme
  refine .ite (.bind (.ending Parser.skip) ?_) (.pure left)
  intro _
  refine .bind hbelow ?_
  intro right
  by_cases hhigh : maxDepth < 1 + max left.depth right.depth
  · rw [if_pos hhigh]
    exact .exceeded fun h => ⟨hexact h, hhigh⟩
  · rw [if_neg hhigh]
    have hnext := ih _ (by simp only [Expr.depth]; omega)
      (.binary lexeme.token left right lexeme.position) rfl
    rw [hover.rest_eq] at hnext
    exact .passed (fun _ => Nat.not_lt.mp hhigh) hnext

/-- If the operands of a level are read alike, so are its phrases. -/
theorem agrees_of_below (hover : level.Over below) (hexact : exact → limited = true)
    (hbelow : Agrees exact (below.parser room) (below.phrase limited less)) :
    Agrees exact (level.parser room) (level.phrase limited less) := by
  rw [hover.parser_eq, hover.phrase_eq]
  exact .bind hbelow fun left => rest_agrees hover hexact hbelow left

theorem factor_agrees (hless : less ≤ depth) (hexact : exact → limited = true ∧ less = depth) :
    Agrees exact (factor.parser (Parser.room depth)) (factor.phrase limited less) := by
  induction hroom : Parser.room depth generalizing depth less with
  | zero =>
    rw [parser, Parser.factor_zero_eq, phrase]
    refine .bind (.ending Parser.peek) ?_
    intro lexeme
    refine .exceeded fun h => ?_
    rcases hexact h with ⟨hlimited, rfl⟩
    exact ⟨hlimited, by unfold Parser.room at hroom; omega⟩
  | succ room ih =>
    have hdepth : depth ≤ maxNesting := by unfold Parser.room at hroom; omega
    have hfactor : Agrees exact (factor.parser room) (factor.phrase limited (less + 1)) := by
      refine ih (Nat.add_le_add_right hless 1) ?_ (by unfold Parser.room at hroom ⊢; omega)
      intro h
      rcases hexact h with ⟨hlimited, rfl⟩
      exact ⟨hlimited, rfl⟩
    have hlimited : exact → limited = true := fun h => (hexact h).1
    rw [parser, Parser.factor_succ_eq, phrase]
    refine .bind (.ending Parser.peek) ?_
    intro lexeme
    refine .passed (fun _ => Nat.le_trans hless hdepth) ?_
    refine .ite (.bind (.ending Parser.skip) ?_) (.bind (.ending _) ?_)
    · -- A sign and the factor after it.
      intro _
      refine .bind hfactor ?_
      intro operand
      by_cases hhigh : maxDepth < 1 + operand.depth
      · rw [if_pos hhigh]
        exact .exceeded fun h => ⟨hlimited h, hhigh⟩
      · rw [if_neg hhigh]
        exact .passed (fun _ => Nat.not_lt.mp hhigh) (.pure _)
    · -- An integer, or an expression between parentheses.
      intro first
      have hexpression : Agrees exact (expression.parser room)
          (expression.phrase limited (less + 1)) :=
        agrees_of_below .expression hlimited (agrees_of_below .term hlimited hfactor)
      exact .ite (.pure _) (.bind hexpression fun tree => .bind (.ending _) fun _ => .pure tree)

/-- The parser of a level and the one with a switch do the same, if the limits are
switched on and both start inside as many signs and parentheses. If not, and the second
starts inside no more than the first, they differ at most where the first stops at a
limit. -/
theorem agrees (level : Level) (hless : less ≤ depth)
    (hexact : exact → limited = true ∧ less = depth) :
    Agrees exact (level.parser (Parser.room depth)) (level.phrase limited less) := by
  have hlimited : exact → limited = true := fun h => (hexact h).1
  have hfactor := factor_agrees hless hexact
  have hterm := agrees_of_below .term hlimited hfactor
  cases level with
  | factor => exact hfactor
  | term => exact hterm
  | expression => exact agrees_of_below .expression hlimited hterm

end Level

end Abacus
