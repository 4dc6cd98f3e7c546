import Abacus.Proofs.Parser.Outcome

/-!
# What the parser accepts

* `Derives.run` — the parser of a level, started before a phrase within the
  limits, reads it and goes on reading after it.
* `Derives.expression_run`, `Derives.parseFrom_run` — an expression is read up to a
  lexeme that cannot make it longer, such as the end of the input.
* `parse_eq_ok_iff` — the parser accepts the expressions within the limits that
  are followed by the end of the input, and its tree is theirs.
-/

namespace Abacus

namespace Level

variable {level below : Level} {room : Nat} {feed : Feed} {cursor : Cursor} {lexeme : Lexeme}

/-- With this item next, the last operand of a phrase of the level is over. -/
def OperandStops (level : Level) (item : Option Item) : Prop :=
  ∀ ⦃below⦄, level.Over below → ∃ lexeme, item = some (.ok lexeme) ∧ ¬ below.isOp lexeme.token

/-- Where the last operand of a phrase is over, so is the last operand of that operand. -/
theorem Over.operandStops (hover : level.Over below) {item : Option Item}
    (hstops : level.OperandStops item) : below.OperandStops item := by
  intro lower hlower
  obtain ⟨lexeme, hitem, -⟩ := hstops hover
  refine ⟨lexeme, hitem, ?_⟩
  cases hover <;> cases hlower
  simp [isOp]

/-- Reading on ends at once where no operator of the level comes next. -/
theorem rest_run {left : Expr} (hitem : feed.item cursor.next = some (.ok lexeme))
    (hop : ¬ level.isOp lexeme.token) :
    level.rest room left feed cursor = (.ok left, level.leave cursor) := by
  cases level with
  | expression => exact Over.expression.rest_stop hitem hop
  | term => exact Over.term.rest_stop hitem hop
  | factor => rfl

/-- What follows an operand is run after it. -/
theorem bind_operand {α : Type} {f : Expr → Parser α} {next : Cursor} {right : Expr}
    (hrun : level.parser room feed cursor = level.rest room right feed next)
    (hitem : feed.item next.next = some (.ok lexeme)) (hop : ¬ level.isOp lexeme.token) :
    (level.parser room >>= f) feed cursor = f right feed (level.leave next) :=
  Parser.bind_ok (hrun.trans (rest_run hitem hop))

end Level

/-- Started before a phrase within the limits, the parser of its level reads it
and goes on reading after it. -/
theorem Derives.run {level : Level} {lexemes : List Lexeme} {tree : Expr} {nest room : Nat}
    {feed : Feed} {cursor : Cursor} (h : Derives level lexemes tree nest) (hnest : nest < room)
    (hdepth : tree.depth ≤ maxDepth) (hholds : feed.Holds cursor.next lexemes)
    (hstops : level.OperandStops (feed.item (cursor.next + lexemes.length))) :
    level.parser room feed cursor = level.rest room tree feed (cursor.use lexemes) := by
  -- On the phrase. A level stops only where an operator of the level below cannot come next.
  induction h generalizing room cursor with
  | integer value position =>
    obtain ⟨hitem, -⟩ := Feed.holds_cons.mp hholds
    cases room with
    | zero => omega
    | succ room => exact Parser.factor_integer hitem
  | @sign op position lexemes operand nest hop _ ih =>
    obtain ⟨hitem, hrest⟩ := Feed.holds_cons.mp hholds
    simp only [Expr.depth] at hdepth
    cases room with
    | zero => omega
    | succ room =>
      have hoperand : Parser.factor room feed (cursor.useOne ⟨op, position⟩) =
          (.ok operand, (cursor.useOne ⟨op, position⟩).use lexemes) :=
        ih (by omega) (by omega) (by simpa using hrest) fun _ hover => by cases hover
      calc Parser.factor (room + 1) feed cursor
        _ = (Parser.factor room >>= Parser.signed ⟨op, position⟩) feed
              (cursor.useOne ⟨op, position⟩) := Parser.factor_sign hitem hop
        _ = Parser.signed ⟨op, position⟩ operand feed
              ((cursor.useOne ⟨op, position⟩).use lexemes) := Parser.bind_ok hoperand
        _ = (.ok (.unary op operand position), cursor.use (⟨op, position⟩ :: lexemes)) := by
          rw [Parser.signed, if_neg (by omega), Parser.pure_run, Cursor.use_cons]
  | @group start stop lexemes tree nest _ ih =>
    obtain ⟨hitem, hrest⟩ := Feed.holds_cons.mp hholds
    obtain ⟨hinner, hstop⟩ := Feed.holds_concat.mp hrest
    cases room with
    | zero => omega
    | succ room =>
      have hnext : feed.item ((cursor.useOne ⟨.lparen, start⟩).use lexemes).next =
          some (.ok ⟨.rparen, stop⟩) := by simpa using hstop
      have hexpression : Level.expression.parser room feed (cursor.useOne ⟨.lparen, start⟩) =
          Level.expression.rest room tree feed
            ((cursor.useOne ⟨.lparen, start⟩).use lexemes) :=
        ih (by omega) hdepth (by simpa using hinner)
          (fun below _ => ⟨⟨.rparen, stop⟩, by simpa using hstop, by
            cases below <;> exact Bool.false_ne_true⟩)
      calc Parser.factor (room + 1) feed cursor
        _ = (Level.expression.parser room >>= Parser.closed) feed
              (cursor.useOne ⟨.lparen, start⟩) := Parser.factor_group hitem
        _ = Parser.closed tree feed
              (Level.expression.leave ((cursor.useOne ⟨.lparen, start⟩).use lexemes)) :=
          Level.bind_operand hexpression hnext Bool.false_ne_true
        _ = (.ok tree, cursor.use (⟨.lparen, start⟩ :: (lexemes ++ [⟨.rparen, stop⟩]))) := by
          rw [Parser.closed_rparen (by rwa [Level.next_leave])]
          simp [Level.leave]
  | @single level below lexemes tree nest hover _ ih =>
    obtain ⟨lexeme, hitem, hop⟩ := hstops hover
    have hnext : feed.item (cursor.use lexemes).next = some (.ok lexeme) := by simpa using hitem
    have hoperand := ih hnest hdepth hholds (hover.operandStops hstops)
    rw [hover.parser_eq, Level.bind_operand hoperand hnext hop, hover.rest_leave hnext]
  | @operator level below op position lefts rights left right m n hover _ hop _ ihl ihr =>
    obtain ⟨hlefts, hrest⟩ := Feed.holds_append.mp hholds
    obtain ⟨hitem, hrights⟩ := Feed.holds_cons.mp hrest
    obtain ⟨lexeme, hend, hother⟩ := hstops hover
    simp only [Expr.depth] at hdepth
    -- Before the operator stands a phrase of the level, which goes on with it.
    have hleft : level.parser room feed cursor = level.rest room left feed (cursor.use lefts) :=
      ihl (by omega) (by omega) hlefts
        (fun below hbelow => ⟨⟨op, position⟩, hitem, hbelow.not_isOp hop⟩)
    have hright : below.parser room feed ((cursor.use lefts).useOne ⟨op, position⟩) =
        below.rest room right feed (cursor.use (lefts ++ ⟨op, position⟩ :: rights)) := by
      rw [Cursor.use_append, Cursor.use_cons]
      refine ihr (by omega) (by omega) (by simpa using hrights) ?_
      simpa [Nat.add_assoc, Nat.add_comm 1] using hover.operandStops hstops
    have hnext : feed.item (cursor.use (lefts ++ ⟨op, position⟩ :: rights)).next =
        some (.ok lexeme) := by
      rw [Cursor.next_use]
      exact hend
    calc level.parser room feed cursor
      _ = level.rest room left feed (cursor.use lefts) := hleft
      _ = (below.parser room >>= level.joined room left ⟨op, position⟩) feed
            ((cursor.use lefts).useOne ⟨op, position⟩) :=
        hover.rest_isOp (by simpa using hitem) hop
      _ = level.joined room left ⟨op, position⟩ right feed
            (below.leave (cursor.use (lefts ++ ⟨op, position⟩ :: rights))) :=
        Level.bind_operand hright hnext hother
      _ = level.rest room (.binary op left right position) feed
            (cursor.use (lefts ++ ⟨op, position⟩ :: rights)) := by
        rw [Level.joined, if_neg (by omega), hover.rest_leave hnext]

/-- An expression within the limits is read up to a lexeme that cannot make it
longer. -/
theorem Derives.expression_run {lexemes : List Lexeme} {tree : Expr} {nest depth : Nat}
    {feed : Feed} {cursor : Cursor} {lexeme : Lexeme} (h : Derives .expression lexemes tree nest)
    (hnest : nest + depth ≤ maxNesting) (hdepth : tree.depth ≤ maxDepth)
    (hholds : feed.Holds cursor.next lexemes)
    (hitem : feed.item (cursor.next + lexemes.length) = some (.ok lexeme))
    (hadditive : ¬ lexeme.token.isAdditive) (hmultiplicative : ¬ lexeme.token.isMultiplicative) :
    Parser.expression depth feed cursor = (.ok tree, (cursor.use lexemes).look) := by
  have hnext : feed.item (cursor.use lexemes).next = some (.ok lexeme) := by simpa using hitem
  have hrun : Level.expression.parser (Parser.room depth) feed cursor =
      Level.expression.rest (Parser.room depth) tree feed (cursor.use lexemes) := by
    refine h.run (by unfold Parser.room; omega) hdepth hholds ?_
    rintro _ ⟨⟩
    exact ⟨lexeme, hitem, hmultiplicative⟩
  exact hrun.trans (Level.rest_run hnext hadditive)

/-- An expression within the limits, followed by the end of the input, is parsed as
its tree. -/
theorem Derives.parseFrom_run {lexemes : List Lexeme} {tree : Expr} {nest start position : Nat}
    {feed : Feed} (h : Derives .expression lexemes tree nest) (hnest : nest ≤ maxNesting)
    (hdepth : tree.depth ≤ maxDepth) (hholds : feed.Holds start (lexemes ++ [⟨.eof, position⟩])) :
    parseFrom start feed = (.ok tree, ((Cursor.startingAt start).use lexemes).look) := by
  obtain ⟨hlexemes, heof⟩ := Feed.holds_concat.mp hholds
  have hrun : Parser.expression 0 feed (.startingAt start) =
      (.ok tree, ((Cursor.startingAt start).use lexemes).look) :=
    h.expression_run hnest hdepth hlexemes heof Bool.false_ne_true Bool.false_ne_true
  rw [parseFrom, Parser.whole_eof hrun (by simpa [Cursor.startingAt] using heof) rfl,
    Cursor.look_look]

/-- A feed is accepted with a tree just if it starts with an expression of that
tree and the end of the input, and neither is the expression nested too deeply
nor the tree too high. -/
theorem parse_eq_ok_iff (feed : Feed) (tree : Expr) :
    parse feed = .ok tree ↔
      ∃ lexemes position nest, feed.Holds 0 (lexemes ++ [⟨.eof, position⟩]) ∧
        Derives .expression lexemes tree nest ∧ nest ≤ 256 ∧ tree.depth ≤ 1024 := by
  constructor
  · intro hparse
    have houtcome := parse_outcome feed
    rw [hparse] at houtcome
    cases houtcome with
    | accepted hholds hderives hnest hdepth => exact ⟨_, _, _, hholds, hderives, hnest, hdepth⟩
  · -- The end of the input cannot make an expression longer.
    rintro ⟨lexemes, position, nest, hholds, hderives, hnest, hdepth⟩
    obtain ⟨hlexemes, hlast⟩ := Feed.holds_append.mp hholds
    obtain ⟨heof, -⟩ := Feed.holds_cons.mp hlast
    have hrun : Parser.expression 0 feed (.startingAt 0) =
        (.ok tree, ((Cursor.startingAt 0).use lexemes).look) :=
      hderives.expression_run hnest hdepth hlexemes heof Bool.false_ne_true
        Bool.false_ne_true
    rw [parse, parseFrom, Parser.whole_eof hrun (by simpa [Cursor.startingAt] using heof) rfl]

end Abacus
