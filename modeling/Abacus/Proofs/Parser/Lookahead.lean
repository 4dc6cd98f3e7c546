import Abacus.Parser.Expression

/-!
# One item of lookahead

What a parser does depends on the items it uses and on the next one, and on no other.

* `Parser.Built` — a parser is put together from the steps that look at the next item, use
  it, note it, fail or do nothing.
* `Parser.Built.whole` — the parser of whole inputs is built like this, and so are its parts.
* `Parser.Built.next_le` — such parsers only go forward.
* `Parser.Built.run_eq` — on feeds that are the same up to the item after the last one used,
  they do the same.
-/

namespace Abacus

namespace Parser

variable {α : Type}

/-! ## Parsers and their steps -/

/-- The parser is made of single steps. What comes after a step may depend on its result. -/
inductive Built : {α : Type} → Parser α → Prop where
  | pure {α : Type} (a : α) : Built (pure a : Parser α)
  | fail {α : Type} (error : ParseError) : Built (fail error : Parser α)
  | peek : Built peek
  | skip : Built skip
  | record (lexeme : Lexeme) : Built (record lexeme)
  | bind {α β : Type} {p : Parser α} {f : α → Parser β} (hfirst : Built p)
    (hnext : ∀ a, Built (f a)) : Built (p >>= f)

namespace Built

variable {p q : Parser α} {operand : Parser Expr} {isOp : Token → Bool}

theorem ite {c : Prop} [Decidable c] (hthen : Built p) (helse : Built q) :
    Built (if c then p else q) := by
  split
  · exact hthen
  · exact helse

theorem eat (expected : List Token.Kind) : Built (eat expected) := by
  refine .bind .peek ?_
  intro lexeme
  exact .ite (.bind .skip fun _ => .bind (.record lexeme) fun _ => .pure lexeme) (.fail _)

theorem chain (hoperand : Built operand) (height : Nat) (left : Expr) :
    Built (chain isOp operand height left) := by
  -- On the height that is left, as the chain itself.
  induction hturns : maxDepth - height using Nat.strongRecOn generalizing height left with
  | ind turns ih =>
  subst hturns
  rw [chain_eq]
  refine .bind .peek ?_
  intro lexeme
  refine .ite (.bind .skip fun _ => .bind hoperand ?_) (.pure left)
  intro right
  by_cases hhigh : maxDepth < 1 + max height right.depth
  · rw [if_pos hhigh]
    exact .fail _
  · rw [if_neg hhigh]
    exact ih _ (by omega) _ _ rfl

theorem level (hoperand : Built operand) : Built (level isOp operand) := by
  rw [level_eq]
  exact .bind hoperand fun left => .chain hoperand left.depth left

theorem factor (room : Nat) : Built (factor room) := by
  induction room with
  | zero => exact .bind .peek fun _ => .fail _
  | succ room ih =>
    refine .bind .peek ?_
    intro lexeme
    refine .ite (.bind .skip fun _ => .bind ih fun operand => ?_) (.bind (.eat _) ?_)
    · exact .ite (.fail _) (.pure _)
    · intro first
      exact .ite (.pure _) (.bind (.level (.level ih)) fun tree =>
        .bind (.eat _) fun _ => .pure tree)

theorem expression (depth : Nat) : Built (expression depth) :=
  .level (.level (.factor _))

theorem whole : Built whole :=
  .bind (.expression 0) fun tree => .bind .peek fun _ => .ite (.pure tree) (.fail _)

/-! ## What they depend on -/

/-- No step goes back. -/
theorem next_le (h : Built p) (feed : Feed) (cursor : Cursor) :
    cursor.next ≤ (p feed cursor).2.next := by
  induction h generalizing cursor with
  | pure | fail | record => exact Nat.le_refl _
  | peek =>
    unfold Parser.peek
    split <;> exact Nat.le_refl _
  | skip => exact Nat.le_succ _
  | @bind α β p f _ _ ihp ihf =>
    have hp := ihp cursor
    rw [bind_run]
    rcases hrun : p feed cursor with ⟨error | a, middle⟩
    · rw [hrun] at hp
      exact hp
    · rw [hrun] at hp
      exact Nat.le_trans hp (ihf a middle)

/-- On a feed that has the same items up to the first one that is not used, the parser does
the same. -/
theorem run_eq (h : Built p) {feed other : Feed} {cursor : Cursor}
    (hsame : ∀ i ≤ (p feed cursor).2.next, other.item i = feed.item i) :
    p other cursor = p feed cursor := by
  induction h generalizing cursor with
  | pure | fail | record | skip => rfl
  | peek =>
    have hitem : other.item cursor.next = feed.item cursor.next :=
      hsame _ (Built.peek.next_le feed cursor)
    unfold Parser.peek
    rw [hitem]
  | @bind α β p f hp hf ihp ihf =>
    rw [bind_run] at hsame
    rw [bind_run, bind_run]
    rcases hrun : p feed cursor with ⟨error | a, middle⟩
    · rw [hrun] at hsame
      rw [ihp (by rwa [hrun]), hrun]
    · -- The second parser goes on from where the first one is.
      rw [hrun] at hsame
      have hmiddle : middle.next ≤ (f a feed middle).2.next := (hf a).next_le feed middle
      have hfirst : p other cursor = p feed cursor := by
        apply ihp
        rw [hrun]
        exact fun i hi => hsame i (Nat.le_trans hi hmiddle)
      rw [hfirst, hrun]
      exact ihf a hsame

end Built

end Parser

end Abacus
