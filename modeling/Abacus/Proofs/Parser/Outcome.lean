import Abacus.Proofs.Grammar.Prefix
import Abacus.Proofs.Parser.Run

/-!
# How a parser ends

What each parser does on any feed, from any cursor: one relation for all of them
and for all ways to end.

* `Outcome` — a tree, or one of five errors. Each names the lexemes that were
  used, says that they are a phrase or the beginning of one, what item comes
  next, and where the cursor is left.
* `TooHigh` — what has been used where a tree would be too high.
* `Outcome.bind` — how an outcome goes through a sequence of two parsers.
* `Level.outcome` — every run of every parser has an outcome.
* `InputOutcome`, `parseFrom_outcome` — the same for the parsing of a whole input, from any
  item on.
* `WholeOutcome`, `parse_outcome` — its results alone, from the first item on.

A loop over operators keeps a phrase of its level: the lexemes used so far and
the tree built so far.
-/

namespace Abacus

namespace Level

/-- With this item next, a phrase of the level cannot become longer. -/
def Stops : Level → Option Item → Prop
  | factor, _ => True
  | term, item => ∃ lexeme, item = some (.ok lexeme) ∧ ¬ lexeme.token.isMultiplicative
  | expression, item =>
    ∃ lexeme, item = some (.ok lexeme) ∧
      ¬ lexeme.token.isMultiplicative ∧ ¬ lexeme.token.isAdditive

namespace Over

variable {level below : Level}

theorem stops (hover : level.Over below) {item : Option Item} {lexeme : Lexeme}
    (hitem : item = some (.ok lexeme)) (hbelow : below.Stops item)
    (hop : ¬ level.isOp lexeme.token) : level.Stops item := by
  cases hover with
  | expression =>
    obtain ⟨other, hother, hmultiplicative⟩ := hbelow
    have heq : lexeme = other := by simpa [hitem] using hother
    exact ⟨lexeme, hitem, heq ▸ hmultiplicative, hop⟩
  | term => exact ⟨lexeme, hitem, hop⟩

/-- Where a feed ends, only a factor is known to be over. -/
theorem leave_of_stops_none (hover : level.Over below) (hstops : below.Stops none)
    (cursor : Cursor) : below.leave cursor = cursor := by
  cases hover with
  | expression =>
    obtain ⟨lexeme, hitem, -⟩ := hstops
    cases hitem
  | term => rfl

end Over

end Level

/-! ## Outcomes -/

/-- The lexemes begin a phrase of the level and end with all operands of the operator `op`, the
last of them a phrase of `last` that the next item cannot make longer. These operands would make
a tree that is too high by one. -/
inductive TooHigh (level : Level) : List Lexeme → Option Item → Lexeme → Level → Prop where
  | intro {front node : List Lexeme} {inner last : Level} {op : Lexeme} {next : Option Item}
    (hstarts : Starts level front inner) (hjoins : Joins inner last node op 1025)
    (hstops : last.Stops next) : TooHigh level (front ++ node) next op last

namespace TooHigh

variable {level below last : Level} {front used : List Lexeme} {next : Option Item} {op : Lexeme}
  {k j : Nat}

/-- The operator is one of the lexemes. -/
theorem op_mem (h : TooHigh level used next op last) : op ∈ used := by
  cases h with
  | intro _ hjoins _ => exact List.mem_append_right _ hjoins.op_mem

theorem stops (h : TooHigh level used next op last) : last.Stops next := by
  cases h with
  | intro _ _ hstops => exact hstops

/-- Lexemes that end with complete operands lead past an operand. -/
theorem walk (h : TooHigh level used next op last) :
    ∃ opened, Point.walk ⟨.operand, 0⟩ used = some ⟨.operator, opened⟩ := by
  cases h with
  | intro hstarts hjoins _ =>
    obtain ⟨nest, opened, hbegun⟩ := Begun.of_starts hstarts
    obtain ⟨tree, n, hderives, -⟩ := hjoins.derives
    exact ⟨0 + opened, by rw [Point.walk_append, hbegun.walk, Option.bind_some, hderives.walk]⟩

/-- What is too high inside a phrase is so inside the phrase around it. -/
theorem inward (hlead : Leads level below front k j) (h : TooHigh below used next op last) :
    TooHigh level (front ++ used) next op last := by
  cases h with
  | intro hstarts hjoins hstops =>
    rw [← List.append_assoc]
    exact .intro (.inward hlead hstarts) hjoins hstops

end TooHigh

/-- How the parser of a level can end, started at `cursor` with as many levels
of signs and parentheses to go as `room` says. -/
inductive Outcome (feed : Feed) (level : Level) (room : Nat) (cursor : Cursor) :
    Except ParseError Expr × Cursor → Prop where
  /-- A phrase within both limits has been used, which nothing after it would
  make longer. -/
  | phrase {used : List Lexeme} {tree : Expr} {nest : Nat}
    (hholds : feed.Holds cursor.next used) (hderives : Derives level used tree nest)
    (hnest : nest < room) (hdepth : tree.depth ≤ maxDepth)
    (hstops : level.Stops (feed.item (cursor.next + used.length))) :
    Outcome feed level room cursor (.ok tree, level.leave (cursor.use used))
  /-- The next token may not follow. After an operand this means that a
  parenthesis is open. -/
  | unexpected {used : List Lexeme} {nest : Nat} {place : Place} {opened : Nat} {lexeme : Lexeme}
    (hholds : feed.Holds cursor.next used) (hbegun : Begun level used nest ⟨place, opened⟩)
    (hitem : feed.item (cursor.next + used.length) = some (.ok lexeme))
    (hrefused : ¬ place.allows lexeme.token) (hopened : place = .operator → 0 < opened) :
    Outcome feed level room cursor
      (.error (.unexpectedToken place.expected lexeme.token lexeme.position),
        (cursor.use used).look)
  /-- The next item is an error of the feed. -/
  | lexical {used : List Lexeme} {nest : Nat} {point : Point} {error : LexError}
    (hholds : feed.Holds cursor.next used) (hbegun : Begun level used nest point)
    (hitem : feed.item (cursor.next + used.length) = some (.error error)) :
    Outcome feed level room cursor (.error (.lexical error), (cursor.use used).look)
  /-- There is no next item. -/
  | ended {used : List Lexeme} {nest : Nat} {point : Point}
    (hholds : feed.Holds cursor.next used) (hbegun : Begun level used nest point)
    (hitem : feed.item (cursor.next + used.length) = none) :
    Outcome feed level room cursor (.error .unexpectedEndOfInput, cursor.use used)
  /-- A factor would start inside as many signs and parentheses as there may
  not be. -/
  | nested {used : List Lexeme} {opened : Nat} {lexeme : Lexeme}
    (hholds : feed.Holds cursor.next used) (hbegun : Begun level used room ⟨.operand, opened⟩)
    (hitem : feed.item (cursor.next + used.length) = some (.ok lexeme)) :
    Outcome feed level room cursor
      (.error (.nestingTooDeep lexeme.position), (cursor.use used).look)
  /-- An operator and its operands, the last of them just used, make a tree that is too
  high by one. -/
  | tall {used : List Lexeme} {op : Lexeme} {last : Level} (hholds : feed.Holds cursor.next used)
    (hhigh : TooHigh level used (feed.item (cursor.next + used.length)) op last) :
    Outcome feed level room cursor
      (.error (.nestingTooDeep op.position), last.leave (cursor.use used))

namespace Outcome

variable {feed : Feed} {level below last : Level} {room : Nat} {cursor final : Cursor}
  {error : ParseError}

/-- All that has been used may be what is too high. -/
theorem tall_whole {node : List Lexeme} {op : Lexeme} {height : Nat}
    (hholds : feed.Holds cursor.next node) (hjoins : Joins level last node op height)
    (hheight : height = maxDepth + 1)
    (hstops : last.Stops (feed.item (cursor.next + node.length))) :
    Outcome feed level room cursor
      (.error (.nestingTooDeep op.position), last.leave (cursor.use node)) := by
  subst hheight
  exact tall hholds (.intro (.here level) hjoins hstops)

/-- An error met inside a phrase is one of the phrase around it, of which the
lexemes `front` were used before, `k` signs and parentheses and `j` parentheses among
them. -/
theorem lift {front : List Lexeme} {k j : Nat} (hholds : feed.Holds cursor.next front)
    (hlead : Leads level below front k j)
    (h : Outcome feed below room (cursor.use front) (.error error, final)) :
    Outcome feed level (room + k) cursor (.error error, final) := by
  have hlength (used : List Lexeme) :
      (cursor.use front).next + used.length = cursor.next + (front ++ used).length := by
    simp [Nat.add_assoc]
  have hall {used : List Lexeme} (hused : feed.Holds (cursor.use front).next used) :
      feed.Holds cursor.next (front ++ used) := by
    simpa [hholds] using hused
  cases h with
  | unexpected hused hbegun hitem hrefused hopened =>
    rw [hlength] at hitem
    rw [← Cursor.use_append]
    exact unexpected (hall hused) (hlead.begun hbegun) hitem hrefused
      fun hplace => Nat.add_pos_left (hopened hplace) j
  | lexical hused hbegun hitem =>
    rw [hlength] at hitem
    rw [← Cursor.use_append]
    exact lexical (hall hused) (hlead.begun hbegun) hitem
  | ended hused hbegun hitem =>
    rw [hlength] at hitem
    rw [← Cursor.use_append]
    exact ended (hall hused) (hlead.begun hbegun) hitem
  | nested hused hbegun hitem =>
    rw [hlength] at hitem
    rw [← Cursor.use_append]
    exact nested (hall hused) (hlead.begun hbegun) hitem
  | tall hused hhigh =>
    rw [hlength] at hhigh
    rw [← Cursor.use_append]
    exact tall (hall hused) (hhigh.inward hlead)

/-- A sequence of two parsers ends as it should if the first does, started after
the lexemes `front`, and the second does wherever the first leaves a phrase. -/
theorem bind {front : List Lexeme} {k j : Nat} {p : Parser Expr} {f : Expr → Parser Expr}
    (hholds : feed.Holds cursor.next front)
    (hlead : Leads level below front k j)
    (hfirst : Outcome feed below room (cursor.use front) (p feed (cursor.use front)))
    (hsecond : ∀ {used : List Lexeme} {tree : Expr} {nest : Nat},
      feed.Holds cursor.next (front ++ used) → Derives below used tree nest → nest < room →
      tree.depth ≤ maxDepth → below.Stops (feed.item (cursor.next + (front ++ used).length)) →
      Outcome feed level (room + k) cursor
        (f tree feed (below.leave (cursor.use (front ++ used))))) :
    Outcome feed level (room + k) cursor ((p >>= f) feed (cursor.use front)) := by
  rcases hrun : p feed (cursor.use front) with ⟨error | tree, final⟩
  · rw [hrun] at hfirst
    rw [Parser.bind_error hrun]
    exact lift hholds hlead hfirst
  · rw [hrun] at hfirst
    rw [Parser.bind_ok hrun]
    cases hfirst with
    | @phrase used _ nest hused hderives hnest hdepth hstops =>
      have hlength : (cursor.use front).next + used.length =
          cursor.next + (front ++ used).length := by simp [Nat.add_assoc]
      rw [hlength] at hstops
      rw [← Cursor.use_append]
      exact hsecond (by simpa [hholds] using hused) hderives hnest hdepth hstops

end Outcome

/-! ## Levels -/

namespace Level

variable {feed : Feed} {level below : Level} {room : Nat}

/-- Reading on after a phrase ends as it should if the operands do. -/
theorem rest_outcome (hover : level.Over below)
    (hbelow : ∀ cursor, Outcome feed below room cursor (below.parser room feed cursor))
    {cursor : Cursor} {used : List Lexeme} {left : Expr} {nest : Nat}
    (hholds : feed.Holds cursor.next used) (hleft : Derives level used left nest)
    (hnest : nest < room) (hdepth : left.depth ≤ maxDepth)
    (hstops : below.Stops (feed.item (cursor.next + used.length))) :
    Outcome feed level room cursor (level.rest room left feed (below.leave (cursor.use used))) := by
  -- The height grows with every turn, up to the limit.
  induction hturns : maxDepth - left.depth using Nat.strongRecOn generalizing left used nest with
  | ind turns ih =>
  subst hturns
  have hnext : (below.leave (cursor.use used)).next = cursor.next + used.length := by simp
  rcases hitem : feed.item (cursor.next + used.length) with _ | error | lexeme
  · -- Where the feed has ended, only a factor can be over: a longer phrase has to look on.
    rw [hitem] at hstops
    rw [hover.rest_end (hnext ▸ hitem), hover.leave_of_stops_none hstops]
    exact .ended hholds hleft.begun hitem
  · rw [hover.rest_error (hnext ▸ hitem), look_leave]
    exact .lexical hholds hleft.begun hitem
  by_cases hop : level.isOp lexeme.token
  · -- One more operator and its operand.
    have hfront : feed.Holds cursor.next (used ++ [lexeme]) := by simp [hholds, hitem]
    have hcursor : (below.leave (cursor.use used)).useOne lexeme =
        cursor.use (used ++ [lexeme]) := by
      rw [← Cursor.useOne_look, look_leave, Cursor.useOne_look]
      simp
    rw [hover.rest_isOp (hnext ▸ hitem) hop, hcursor]
    refine Outcome.bind hfront (.later hover hleft hop) (hbelow _) ?_
    intro rights right n hall hright hn hlow hend
    by_cases hhigh : maxDepth < 1 + max left.depth right.depth
    · -- Neither operand is too high, so the tree is so by one.
      rw [joined, if_pos hhigh, Parser.fail_run]
      have hjoins : Joins level below (used ++ [lexeme] ++ rights) lexeme
          (1 + max left.depth right.depth) := by
        simpa using Joins.operator hover hleft hop hright
      exact .tall_whole hall hjoins (by omega) hend
    · rw [joined, if_neg hhigh]
      have hderives : Derives level (used ++ [lexeme] ++ rights)
          (.binary lexeme.token left right lexeme.position) (max nest n) := by
        simpa using Derives.operator hover hleft hop hright
      refine ih _ ?_ hall hderives (by omega) (by simpa [Expr.depth] using hhigh) hend rfl
      simp only [Expr.depth]
      omega
  · -- The phrase is over.
    rw [hover.rest_stop (hnext ▸ hitem) hop, look_leave, ← hover.leave_eq]
    exact .phrase hholds hleft hnest hdepth (hover.stops hitem hstops hop)

/-- If the operands of a level end as they should, so do its phrases. -/
theorem outcome_of_below (hover : level.Over below)
    (hbelow : ∀ cursor, Outcome feed below room cursor (below.parser room feed cursor))
    (cursor : Cursor) : Outcome feed level room cursor (level.parser room feed cursor) := by
  have hfront : feed.Holds cursor.next [] := Feed.holds_nil
  rw [hover.parser_eq]
  refine Outcome.bind hfront (.first hover) (hbelow cursor) ?_
  intro used left nest hholds hderives hnest hdepth hstops
  have hfirst : Derives level used left nest := .single hover hderives
  exact rest_outcome hover hbelow hholds hfirst hnest hdepth hstops

/-- A factor that starts with a sign ends as it should if the factor after the sign does. -/
theorem sign_outcome {cursor : Cursor} {lexeme : Lexeme}
    (hitem : feed.item cursor.next = some (.ok lexeme)) (hop : lexeme.token.isAdditive)
    (hoperand : ∀ cursor, Outcome feed .factor room cursor (Parser.factor room feed cursor)) :
    Outcome feed .factor (room + 1) cursor (Parser.factor (room + 1) feed cursor) := by
  have hfront : feed.Holds cursor.next [lexeme] := by simp [hitem]
  rw [Parser.factor_sign hitem hop]
  refine Outcome.bind hfront (.sign hop) (hoperand _) ?_
  intro used operand nest hall hderives hnest hdepth hend
  by_cases hhigh : maxDepth < 1 + operand.depth
  · rw [Parser.signed, if_pos hhigh, Parser.fail_run]
    have hjoins : Joins .factor .factor ([lexeme] ++ used) lexeme (1 + operand.depth) :=
      .sign hop hderives
    exact .tall_whole hall hjoins (by omega) hend
  · rw [Parser.signed, if_neg hhigh, Parser.pure_run]
    have hsign : Derives .factor ([lexeme] ++ used)
        (.unary lexeme.token operand lexeme.position) (nest + 1) := .sign hop hderives
    exact .phrase hall hsign (by omega) (by simpa [Expr.depth] using hhigh) trivial

/-- A factor that starts with a parenthesis ends as it should if the expression after the
parenthesis does. -/
theorem group_outcome {cursor : Cursor} {start : Nat}
    (hitem : feed.item cursor.next = some (.ok ⟨.lparen, start⟩))
    (hinner : ∀ cursor,
      Outcome feed .expression room cursor (expression.parser room feed cursor)) :
    Outcome feed .factor (room + 1) cursor (Parser.factor (room + 1) feed cursor) := by
  have hfront : feed.Holds cursor.next [⟨.lparen, start⟩] := by simp [hitem]
  rw [Parser.factor_group hitem]
  refine Outcome.bind hfront .group (hinner _) ?_
  intro used tree nest hall hderives hnest hdepth hstops
  obtain ⟨⟨token, stop⟩, hnext, hmultiplicative, hadditive⟩ := hstops
  have hitem : feed.item (expression.leave (cursor.use ([⟨.lparen, start⟩] ++ used))).next =
      some (.ok ⟨token, stop⟩) := by
    rwa [next_leave, Cursor.next_use]
  by_cases hclosed : token = .rparen
  · -- The factor is over with the parenthesis.
    subst hclosed
    have hcursor : (expression.leave (cursor.use ([⟨.lparen, start⟩] ++ used))).useOne
        ⟨.rparen, stop⟩ = cursor.use (⟨.lparen, start⟩ :: (used ++ [⟨.rparen, stop⟩])) := by
      rw [← Cursor.useOne_look, look_leave, Cursor.useOne_look]
      simp
    have hgroup : feed.Holds cursor.next (⟨.lparen, start⟩ :: (used ++ [⟨.rparen, stop⟩])) := by
      rw [← List.cons_append, Feed.holds_append]
      exact ⟨hall, by simpa using hnext⟩
    rw [Parser.closed_rparen hitem, hcursor]
    exact .phrase hgroup (.group hderives) (by omega) hdepth trivial
  · -- The expression has stopped at a token that is no operator either.
    have hkind : token.kind ∉ [Token.Kind.rparen] := by
      cases token <;> simp_all [Token.kind]
    rw [Parser.closed_unexpected hitem hkind, look_leave]
    have hrefused : ¬ Place.operator.allows token := by
      simp_all [Place.allows, Place.expected]
    exact .unexpected hall (.group hderives.begun) hnext hrefused (by simp)

/-- A factor ends as it should. -/
theorem factor_outcome (room : Nat) (cursor : Cursor) :
    Outcome feed .factor room cursor (Parser.factor room feed cursor) := by
  have hnil (start : Nat) : feed.Holds start [] := Feed.holds_nil
  induction room generalizing cursor with
  | zero =>
    -- Errors of the feed come first.
    rcases hitem : feed.item cursor.next with _ | error | lexeme
    · rw [Parser.factor_end hitem]
      exact .ended (hnil _) .start hitem
    · rw [Parser.factor_error hitem]
      exact .lexical (hnil _) .start hitem
    · rw [Parser.factor_zero hitem]
      exact .nested (hnil _) .start hitem
  | succ room ih =>
    rcases hitem : feed.item cursor.next with _ | error | lexeme
    · rw [Parser.factor_end hitem]
      exact .ended (hnil _) .start hitem
    · rw [Parser.factor_error hitem]
      exact .lexical (hnil _) .start hitem
    by_cases hop : lexeme.token.isAdditive
    · exact sign_outcome hitem hop ih
    by_cases hkind : lexeme.token.kind ∈ [Token.Kind.integer, Token.Kind.lparen]
    · rcases lexeme with ⟨_ | _ | _ | _ | _ | _ | _ | _, position⟩
      case integer value =>
        have hall : feed.Holds cursor.next [⟨.integer value, position⟩] := by simp [hitem]
        have hlow : (Expr.literal (.integer value) position).depth ≤ maxDepth := by
          simp [Expr.depth, maxDepth]
        rw [Parser.factor_integer hitem]
        exact .phrase hall (.integer value position) (by omega) hlow trivial
      case lparen =>
        exact group_outcome hitem (outcome_of_below .expression (outcome_of_below .term ih))
      all_goals simp [Token.kind] at hkind
    · have hrefused : ¬ Place.operand.allows lexeme.token := by
        simp_all [Place.allows, Place.expected]
      rw [Parser.factor_unexpected hitem hop hkind]
      exact .unexpected (hnil _) .start hitem hrefused fun h => by cases h

/-- Every parser ends as it should. -/
theorem outcome (feed : Feed) (level : Level) (room : Nat) (cursor : Cursor) :
    Outcome feed level room cursor (level.parser room feed cursor) :=
  match level with
  | .factor => factor_outcome room cursor
  | .term => outcome_of_below .term (factor_outcome room) cursor
  | .expression =>
    outcome_of_below .expression (outcome_of_below .term (factor_outcome room)) cursor

end Level

/-- An expression inside `depth` signs and parentheses ends as it should. -/
theorem Parser.expression_outcome (feed : Feed) (depth : Nat) (cursor : Cursor) :
    Outcome feed .expression (room depth) cursor (expression depth feed cursor) :=
  Level.outcome feed .expression (room depth) cursor

/-! ## Whole inputs -/

/-- How the parsing of a whole input ends that begins at item `start`. -/
inductive InputOutcome (feed : Feed) (start : Nat) : Except ParseError Expr × Cursor → Prop where
  /-- The input is an expression within the limits and the end of the input, which has been
  looked at. -/
  | accepted {used : List Lexeme} {tree : Expr} {nest position : Nat}
    (hholds : feed.Holds start (used ++ [⟨.eof, position⟩]))
    (hderives : Derives .expression used tree nest) (hnest : nest ≤ maxNesting)
    (hdepth : tree.depth ≤ maxDepth) :
    InputOutcome feed start (.ok tree, ((Cursor.startingAt start).use used).look)
  /-- After the expression comes something else, and it is no operator. -/
  | trailing {used : List Lexeme} {tree : Expr} {nest : Nat} {lexeme : Lexeme}
    (hholds : feed.Holds start used) (hderives : Derives .expression used tree nest)
    (hitem : feed.item (start + used.length) = some (.ok lexeme)) (heof : lexeme.token ≠ .eof)
    (hadditive : ¬ lexeme.token.isAdditive) (hmultiplicative : ¬ lexeme.token.isMultiplicative) :
    InputOutcome feed start
      (.error (.unexpectedTrailingTokens lexeme.token lexeme.position),
        ((Cursor.startingAt start).use used).look)
  /-- There is an error in the expression. -/
  | failed {error : ParseError} {final : Cursor}
    (h : Outcome feed .expression (Parser.room 0) (.startingAt start) (.error error, final)) :
    InputOutcome feed start (.error error, final)

/-- Started anywhere in any feed, the parsing of an input has one of the outcomes of an
input. -/
theorem parseFrom_outcome (start : Nat) (feed : Feed) :
    InputOutcome feed start (parseFrom start feed) := by
  have houtcome := Parser.expression_outcome feed 0 (.startingAt start)
  rcases hrun : Parser.expression 0 feed (.startingAt start) with ⟨error | tree, final⟩
  · rw [parseFrom, Parser.whole_error hrun]
    rw [hrun] at houtcome
    exact .failed houtcome
  rw [hrun] at houtcome
  cases houtcome with
  | @phrase used _ nest hholds hderives hnest hdepth hstops =>
    obtain ⟨⟨token, position⟩, hitem, hmultiplicative, hadditive⟩ := hstops
    have hnext : feed.item (Level.expression.leave ((Cursor.startingAt start).use used)).next =
        some (.ok ⟨token, position⟩) := by
      rwa [Level.next_leave, Cursor.next_use]
    by_cases heof : token = .eof
    · rw [parseFrom, Parser.whole_eof hrun hnext heof, Level.look_leave]
      subst heof
      have hall : feed.Holds start (used ++ [⟨.eof, position⟩]) :=
        Feed.holds_concat.mpr ⟨hholds, hitem⟩
      exact .accepted hall hderives (Nat.le_of_lt_succ hnest) hdepth
    · rw [parseFrom, Parser.whole_trailing hrun hnext heof, Level.look_leave]
      exact .trailing hholds hderives hitem heof hadditive hmultiplicative

/-- How the parsing of a whole feed ends. -/
inductive WholeOutcome (feed : Feed) : Except ParseError Expr → Prop where
  /-- The feed starts with an expression within the limits and the end of the
  input. -/
  | accepted {used : List Lexeme} {tree : Expr} {nest position : Nat}
    (hholds : feed.Holds 0 (used ++ [⟨.eof, position⟩]))
    (hderives : Derives .expression used tree nest) (hnest : nest ≤ maxNesting)
    (hdepth : tree.depth ≤ maxDepth) : WholeOutcome feed (.ok tree)
  /-- After the expression comes something else, and it is no operator. -/
  | trailing {used : List Lexeme} {tree : Expr} {nest : Nat} {lexeme : Lexeme}
    (hholds : feed.Holds 0 used) (hderives : Derives .expression used tree nest)
    (hitem : feed.item used.length = some (.ok lexeme)) (heof : lexeme.token ≠ .eof)
    (hadditive : ¬ lexeme.token.isAdditive) (hmultiplicative : ¬ lexeme.token.isMultiplicative) :
    WholeOutcome feed (.error (.unexpectedTrailingTokens lexeme.token lexeme.position))
  /-- There is an error in the expression. -/
  | failed {error : ParseError} {final : Cursor}
    (h : Outcome feed .expression (Parser.room 0) (.startingAt 0) (.error error, final)) :
    WholeOutcome feed (.error error)

/-- The parsing of any feed has one of the outcomes of a whole feed. -/
theorem parse_outcome (feed : Feed) : WholeOutcome feed (parse feed) := by
  have houtcome := parseFrom_outcome 0 feed
  rw [parse]
  rcases hrun : parseFrom 0 feed with ⟨result, final⟩
  rw [hrun] at houtcome
  cases houtcome with
  | accepted hholds hderives hnest hdepth => exact .accepted hholds hderives hnest hdepth
  | trailing hholds hderives hitem heof hadditive hmultiplicative =>
    rw [Nat.zero_add] at hitem
    exact .trailing hholds hderives hitem heof hadditive hmultiplicative
  | failed h => exact .failed h

end Abacus
