import Abacus.Parser.Expression

/-!
# How far the parsers read

The two limits bound the reading of every feed, also of one that never ends and
has no error.

* `Parser.Uses count p` — the parser uses at most `count` items wherever it
  starts, and its result does not depend on what comes after the next one.
* `Parser.Uses.bind` and the lemmas beside it — one rule for each way parsers are
  put together.
* `Parser.Uses.chain` — a loop over operators ends because the tree grows with
  every turn.
* `Parser.Uses.factor` — the descent ends because fewer levels are left each time.
* `exists_pull_bound` — one bound for all parsers and all feeds.
-/

namespace Abacus

namespace Parser

/-- How many items a level of operators uses over operands that use `count`. -/
def levelCount (count : Nat) : Nat :=
  count + (1 + count) * (maxDepth + 1)

/-- How many items a factor uses with as many levels of signs and parentheses to go
as `room` says. -/
def factorCount : Nat → Nat
  | 0 => 0
  | room + 1 => levelCount (levelCount (factorCount room)) + 2

theorem le_levelCount (count : Nat) : count ≤ levelCount count :=
  Nat.le_add_right _ _

/-- An expression within a factor uses less than the factor. -/
theorem levelCount_lt_factorCount {room more : Nat} (hlt : room < more) :
    levelCount (levelCount (factorCount room)) < factorCount more := by
  induction hlt with
  | refl => exact Nat.lt_add_of_pos_right (by decide)
  | @step more _ ih =>
    have := le_levelCount (factorCount more)
    have := le_levelCount (levelCount (factorCount more))
    simp only [factorCount]
    omega

variable {α β : Type} {count more : Nat} {p q : Parser α} {f : α → Parser β}

/-- Started anywhere in any feed, the parser uses at most `count` items. It looks at
no item but these and the next one, and its outcome depends on no other. -/
structure Uses (count : Nat) (p : Parser α) : Prop where
  next : ∀ feed cursor, (p feed cursor).2.next ≤ cursor.next + count
  pulled : ∀ feed cursor, (p feed cursor).2.pulled ≤ max cursor.pulled (cursor.next + count + 1)
  agrees : ∀ (feed other : Feed) (cursor : Cursor),
    (∀ i ≤ cursor.next + count, other.item i = feed.item i) → p other cursor = p feed cursor

namespace Uses

theorem mono (h : Uses count p) (hle : count ≤ more) : Uses more p where
  next feed cursor := by
    have := h.next feed cursor
    omega
  pulled feed cursor := by
    have := h.pulled feed cursor
    omega
  agrees feed other cursor hsame := h.agrees feed other cursor fun i hi => hsame i (by omega)

theorem pure (a : α) : Uses 0 (pure a) where
  next _ _ := Nat.le_refl _
  pulled _ _ := Nat.le_max_left _ _
  agrees _ _ _ _ := rfl

theorem fail (error : ParseError) : Uses 0 (fail error : Parser α) where
  next _ _ := Nat.le_refl _
  pulled _ _ := Nat.le_max_left _ _
  agrees _ _ _ _ := rfl

theorem skip : Uses 1 skip where
  next _ _ := Nat.le_refl _
  pulled _ cursor := by
    simp only [skip_run, Cursor.advance]
    omega
  agrees _ _ _ _ := rfl

theorem record (lexeme : Lexeme) : Uses 0 (record lexeme) where
  next _ _ := Nat.le_refl _
  pulled _ _ := Nat.le_max_left _ _
  agrees _ _ _ _ := rfl

theorem peek : Uses 0 peek where
  next feed cursor := by
    unfold Parser.peek
    split <;> exact Nat.le_refl _
  pulled feed cursor := by
    unfold Parser.peek
    split
    · exact Nat.le_refl _
    · exact Nat.le_refl _
    · exact Nat.le_max_left _ _
  agrees feed other cursor hsame := by
    unfold Parser.peek
    rw [hsame cursor.next (Nat.le_refl _)]

/-- One parser after another uses what both use. -/
theorem bind (hfirst : Uses count p) (hnext : ∀ a, Uses more (f a)) :
    Uses (count + more) (p >>= f) where
  next feed cursor := by
    have hp := hfirst.next feed cursor
    rw [bind_run]
    rcases hrun : p feed cursor with ⟨error | a, middle⟩
    · rw [hrun] at hp
      dsimp only at hp ⊢
      omega
    · rw [hrun] at hp
      have hf := (hnext a).next feed middle
      dsimp only at hp ⊢
      omega
  pulled feed cursor := by
    have hp := hfirst.next feed cursor
    have hpulled := hfirst.pulled feed cursor
    rw [bind_run]
    rcases hrun : p feed cursor with ⟨error | a, middle⟩
    · rw [hrun] at hpulled
      dsimp only at hpulled ⊢
      omega
    · rw [hrun] at hp hpulled
      have hf := (hnext a).pulled feed middle
      dsimp only at hp hpulled ⊢
      omega
  agrees feed other cursor hsame := by
    have hp := hfirst.next feed cursor
    rw [bind_run, bind_run, hfirst.agrees feed other cursor fun i hi => hsame i (by omega)]
    rcases hrun : p feed cursor with ⟨error | a, middle⟩
    · rfl
    · rw [hrun] at hp
      exact (hnext a).agrees feed other middle fun i hi => hsame i (by dsimp only at hp; omega)

/-- To look at the next item first uses nothing more. -/
theorem peek_bind {f : Lexeme → Parser β} (hnext : ∀ lexeme, Uses count (f lexeme)) :
    Uses count (Parser.peek >>= f) :=
  (peek.bind hnext).mono (Nat.le_of_eq (Nat.zero_add _))

theorem ite {c : Prop} [Decidable c] (hthen : Uses count p) (helse : Uses count q) :
    Uses count (if c then p else q) := by
  split
  · exact hthen
  · exact helse

theorem eat (expected : List Token.Kind) : Uses 1 (eat expected) := by
  refine peek_bind ?_
  intro lexeme
  refine ite ?_ ((fail _).mono (Nat.zero_le _))
  exact skip.bind fun _ => (record lexeme).bind fun _ => pure lexeme

variable {operand : Parser Expr} {isOp : Token → Bool}

/-- Every turn of the loop uses an operator and an operand, and there is at most one
turn for each height that a tree may still reach, and one that fails. -/
theorem chain (hoperand : Uses count operand) (height : Nat) (left : Expr) :
    Uses ((1 + count) * (maxDepth - height + 1)) (chain isOp operand height left) := by
  induction hturns : maxDepth - height using Nat.strongRecOn generalizing height left with
  | ind turns ih =>
  subst hturns
  have hturn : Uses (1 + (count + (1 + count) * (maxDepth - height)))
      (Parser.chain isOp operand height left) := by
    rw [chain_eq]
    refine peek_bind ?_
    intro lexeme
    refine ite (skip.bind fun _ => hoperand.bind ?_) ((pure left).mono (Nat.zero_le _))
    intro right
    by_cases hhigh : maxDepth < 1 + max height right.depth
    · rw [if_pos hhigh]
      exact (fail _).mono (Nat.zero_le _)
    · rw [if_neg hhigh]
      refine (ih _ (by omega) _ _ rfl).mono ?_
      exact Nat.mul_le_mul_left _ (by omega)
  refine hturn.mono (Nat.le_of_eq ?_)
  rw [Nat.mul_add, Nat.mul_one]
  omega

theorem level (hoperand : Uses count operand) :
    Uses (levelCount count) (level isOp operand) := by
  rw [level_eq]
  refine hoperand.bind ?_
  intro left
  refine (chain hoperand left.depth left).mono ?_
  exact Nat.mul_le_mul_left _ (by omega)

theorem sum {factor : Parser Expr} (hfactor : Uses count factor) :
    Uses (levelCount (levelCount count)) (sum factor) :=
  hfactor.level.level

theorem factor (room : Nat) : Uses (factorCount room) (factor room) := by
  -- On the levels that are left; each sign and each parenthesis takes one.
  induction room with
  | zero => exact peek_bind fun _ => fail _
  | succ room ih =>
    have hle : factorCount room ≤ levelCount (levelCount (factorCount room)) :=
      Nat.le_trans (le_levelCount _) (le_levelCount _)
    refine peek_bind ?_
    intro lexeme
    refine ite ?_ ?_
    · have hsign := skip.bind fun _ => ih.bind fun operand =>
        ite (c := maxDepth < 1 + operand.depth) (fail (.nestingTooDeep lexeme.position))
          (pure (Expr.unary lexeme.token operand lexeme.position))
      exact hsign.mono (by simp only [factorCount]; omega)
    · have hgroup := ih.sum.bind fun tree => (eat [.rparen]).bind fun _ => pure tree
      have hprimary := (eat [.integer, .lparen]).bind fun first =>
        ite (c := first.token.kind = .integer)
          ((pure (Expr.literal first.token first.position)).mono (Nat.zero_le _)) hgroup
      exact hprimary.mono (by simp only [factorCount]; omega)

end Uses

/-- Started at any item of any feed, the parser ends with at most `bound` items pulled,
and its outcome is the same whatever comes after them. -/
def PullsAtMost (bound : Nat) (p : Parser α) : Prop :=
  ∀ (feed : Feed) (start : Nat),
    (p feed (.startingAt start)).2.pulled ≤ start + bound ∧
      ∀ other : Feed, (∀ i < start + bound, other.item i = feed.item i) →
        p other (.startingAt start) = p feed (.startingAt start)

theorem Uses.pullsAtMost {bound : Nat} (h : Uses count p) (hlt : count < bound) :
    PullsAtMost bound p := by
  intro feed start
  have hpulled := h.pulled feed (.startingAt start)
  simp only [Cursor.startingAt] at hpulled
  refine ⟨by simp only [Cursor.startingAt]; omega, ?_⟩
  intro other hsame
  exact h.agrees feed other _ fun i hi => hsame i (by simp only [Cursor.startingAt] at hi; omega)

end Parser

/-- There is one bound for all feeds, endless ones among them, and all depths: a whole
input, an expression and a term are read to a tree or an error with no more items than
this pulled. -/
theorem exists_pull_bound :
    ∃ bound, Parser.PullsAtMost bound Parser.whole ∧
      ∀ depth, Parser.PullsAtMost bound (Parser.expression depth) ∧
        Parser.PullsAtMost bound (Parser.term depth) := by
  have hfactor (depth : Nat) := Parser.Uses.factor (Parser.room depth)
  have hroom (depth : Nat) : Parser.room depth < maxNesting + 2 := by
    unfold Parser.room
    omega
  have hlt (depth : Nat) := Parser.levelCount_lt_factorCount (hroom depth)
  have hwhole : Parser.Uses (Parser.levelCount (Parser.levelCount (Parser.factorCount
      (Parser.room 0)))) Parser.whole := by
    refine ((hfactor 0).sum.bind ?_).mono (Nat.le_of_eq (Nat.add_zero _))
    intro tree
    exact .peek_bind fun lexeme => .ite (.pure tree) (.fail _)
  refine ⟨Parser.factorCount (maxNesting + 2), hwhole.pullsAtMost (hlt 0), ?_⟩
  intro depth
  exact ⟨(hfactor depth).sum.pullsAtMost (hlt depth),
    (hfactor depth).level.pullsAtMost (Nat.lt_of_le_of_lt (Parser.le_levelCount _) (hlt depth))⟩

end Abacus
