import Abacus.Proofs.Parser.Acceptance
import Abacus.Proofs.Parser.Ending

/-!
# What the two limits do

The parser beside the same parser without its limits.

* `Exceeds` — where the parser stands when it stops at a limit.
* `limits_only_reject` — the limits change nothing but to stop the parser, and stop it
  only where one of them is exceeded.
-/

namespace Abacus

open Abacus.Parser (Agrees)

/-! ## Stopping at a limit -/

/-- Started at item `start` inside `depth` signs and parentheses, the parser has come to
item `stop` and may not go on: something at the position exceeds a limit. -/
inductive Exceeds (feed : Feed) (depth start position stop : Nat) : Prop where
  /-- The next item, with which a factor must start, is inside too many signs and
  parentheses. -/
  | nested {used : List Lexeme} {nest opened : Nat} {lexeme : Lexeme}
    (hholds : feed.Holds start used) (hbegun : Begun .expression used nest ⟨.operand, opened⟩)
    (hstop : stop = start + used.length) (hitem : feed.item stop = some (.ok lexeme))
    (hposition : lexeme.position = position) (hnest : 256 < nest + depth)
  /-- All that has been used begins an expression and ends with the complete operands of an
  operator, which would make a node of height 1025. -/
  | tall {used : List Lexeme} {op : Lexeme} {last : Level} (hholds : feed.Holds start used)
    (hstop : stop = start + used.length)
    (hhigh : TooHigh .expression used (feed.item stop) op last) (hposition : op.position = position)

namespace Parser

variable {feed : Feed} {cursor final : Cursor} {depth less position : Nat}

/-- Where the parser of expressions stops at a limit, the limit is exceeded. -/
theorem exceeds_of_expression
    (hrun : expression depth feed cursor = (.error (.nestingTooDeep position), final)) :
    Exceeds feed depth cursor.next position final.next := by
  have houtcome := expression_outcome feed depth cursor
  rw [hrun] at houtcome
  cases houtcome with
  | @nested used opened lexeme hholds hbegun hitem =>
    have hstop : (cursor.use used).look.next = cursor.next + used.length := by simp
    exact .nested hholds hbegun hstop (hstop ▸ hitem) rfl (by unfold room maxNesting; omega)
  | @tall used op last hholds hhigh =>
    have hstop : (last.leave (cursor.use used)).next = cursor.next + used.length := by
      rw [Level.next_leave, Cursor.next_use]
    exact .tall hholds hstop (hstop ▸ hhigh) rfl

/-- With its limits switched on, the parser of expressions is the one that always ends. -/
theorem phrase_limited (depth : Nat) (feed : Feed) (cursor : Cursor) :
    Level.expression.phrase true depth feed cursor = some (expression depth feed cursor) := by
  have hagrees : Agrees True (expression depth) (Level.expression.phrase true depth) :=
    Level.expression.agrees (Nat.le_refl depth) fun _ => ⟨rfl, rfl⟩
  rcases hagrees feed cursor with hsame | ⟨hfalse, -⟩
  · exact hsame
  · exact absurd trivial hfalse

/-- What does not stop at a limit ends in the same way without limits, and inside fewer
signs and parentheses. -/
theorem phrase_of_not_stopped (limited : Bool) (hless : less ≤ depth)
    (hpassed : ∀ position, (expression depth feed cursor).1 ≠ .error (.nestingTooDeep position)) :
    Level.expression.phrase limited less feed cursor = some (expression depth feed cursor) := by
  have hagrees : Agrees False (expression depth) (Level.expression.phrase limited less) :=
    Level.expression.agrees hless False.elim
  rcases hagrees feed cursor with hsame | ⟨-, position, hstopped⟩
  · exact hsame
  · exact absurd hstopped (hpassed position)

end Parser

/-- On a feed that ends, inside any number of signs and parentheses, the parser of
expressions without its limits ends too. If the parser with them does not stop at one,
both do the same, and so does the parser inside fewer signs and parentheses. If it stops,
then because a limit is exceeded there; and it does not stop at an expression that is
within both limits. -/
theorem limits_only_reject (feed : Feed) (hfinite : ∃ n, feed.item n = none) (depth : Nat)
    (cursor : Cursor) :
    ∃ free, Level.expression.phrase false depth feed cursor = some free ∧
      Level.expression.phrase true depth feed cursor = some (Parser.expression depth feed cursor) ∧
      ((∀ position,
          (Parser.expression depth feed cursor).1 ≠ .error (.nestingTooDeep position)) →
        Parser.expression depth feed cursor = free ∧
        ∀ less ≤ depth, Parser.expression less feed cursor = Parser.expression depth feed cursor) ∧
      (∀ position final,
        Parser.expression depth feed cursor = (.error (.nestingTooDeep position), final) →
        Exceeds feed depth cursor.next position final.next) ∧
      (∀ tree, free.1 = .ok tree →
        feed.Reads .expression cursor.next tree free.2.next ∧
        ∀ used nest, feed.Holds cursor.next used → Derives .expression used tree nest →
          free.2.next = cursor.next + used.length → tree.depth ≤ 1024 → nest + depth ≤ 256 →
          Parser.expression depth feed cursor = free) := by
  rcases hfinite with ⟨stop, hend⟩
  rcases Level.expression.ends hend depth cursor with ⟨free, hfree, hfinds⟩
  have hsame (hpassed : ∀ position,
      (Parser.expression depth feed cursor).1 ≠ .error (.nestingTooDeep position)) :
      Parser.expression depth feed cursor = free := by
    rw [Parser.phrase_of_not_stopped false (Nat.le_refl depth) hpassed] at hfree
    exact Option.some.inj hfree
  refine ⟨free, hfree, Parser.phrase_limited depth feed cursor, ?_, ?_, ?_⟩
  · intro hpassed
    refine ⟨hsame hpassed, ?_⟩
    intro less hless
    have hsmaller := Parser.phrase_of_not_stopped true hless hpassed
    rw [Parser.phrase_limited] at hsmaller
    exact Option.some.inj hsmaller
  · intro position final hrun
    exact Parser.exceeds_of_expression hrun
  · intro tree htree
    rcases hfinds tree htree with ⟨hreads, lexeme, hitem, hmultiplicative, hadditive⟩
    refine ⟨hreads, ?_⟩
    intro used nest hholds hderives hnext hdepth hnest
    -- The parser with limits reads the same expression, so it stops at none of them.
    rw [hnext] at hitem
    apply hsame
    intro position hstopped
    rw [hderives.expression_run hnest hdepth hholds hitem hadditive hmultiplicative] at hstopped
    cases hstopped

/-- A sign is one too many inside 256 others, and not inside 255. -/
theorem limits_only_reject_sign :
    let feed := Feed.ofItems #[.ok ⟨.minus, 0⟩, .ok ⟨.integer 1, 1⟩, .ok ⟨.eof, 2⟩]
    (∃ n, feed.item n = none) ∧ Exceeds feed 256 0 1 1 ∧
      Level.expression.phrase false 255 feed (.startingAt 0) =
        some (.ok (.unary .minus (.literal (.integer 1) 1) 0), ⟨2, 3, #[⟨.integer 1, 1⟩]⟩) := by
  intro feed
  have hfinite : ∃ n, feed.item n = none := ⟨3, rfl⟩
  have hstopped : Parser.expression 256 feed (.startingAt 0) =
      (.error (.nestingTooDeep 1), ⟨1, 2, #[]⟩) := by cbv
  have hread : Parser.expression 255 feed (.startingAt 0) =
      (.ok (.unary .minus (.literal (.integer 1) 1) 0), ⟨2, 3, #[⟨.integer 1, 1⟩]⟩) := by cbv
  rcases limits_only_reject feed hfinite 256 (.startingAt 0) with ⟨-, -, -, -, hexceeds, -⟩
  rcases limits_only_reject feed hfinite 255 (.startingAt 0) with ⟨free, hfree, -, hpassed, -⟩
  rw [hread] at hpassed
  obtain ⟨rfl, -⟩ := hpassed fun _ h => by cases h
  exact ⟨hfinite, hexceeds 1 _ hstopped, hfree⟩

end Abacus
