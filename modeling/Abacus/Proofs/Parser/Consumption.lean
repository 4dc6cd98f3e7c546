import Abacus.Proofs.Parser.Outcome

/-!
# What the parsers use up

Where a parser leaves the feed, after every way to end.

* `Derives.not_stops` — where a phrase goes on after a part of it that could stand alone,
  it goes on with a token that cannot end the level.
* `Derives.length_le` — so a phrase that is followed by a token which ends its level is the
  longest one there.
* `Leaves`, `Consumes` — what has been used and what comes next, after an error and after
  any result.
* `parsers_consume` — the parsers of expressions and terms use exactly a phrase, the longest
  one, and an error leaves what it is about in place.
-/

namespace Abacus

/-! ## Longest phrases -/

namespace Point

variable {start stop : Point}

/-- Parentheses around a token list do not change where one of its tokens leads. -/
theorem step_opened {token : Token} (h : start.step token = some stop) (more : Nat) :
    step ⟨start.place, start.opened + more⟩ token = some ⟨stop.place, stop.opened + more⟩ := by
  rcases start with ⟨_ | _, _ | opened⟩ <;> cases token <;> cases h <;>
    simp [step, Token.isAdditive, Token.isMultiplicative, Nat.add_right_comm _ 1 more]

/-- Parentheses around a token list do not change where it leads. -/
theorem walk_opened {lexemes : List Lexeme} (h : start.walk lexemes = some stop) (more : Nat) :
    walk ⟨start.place, start.opened + more⟩ lexemes =
      some ⟨stop.place, stop.opened + more⟩ := by
  induction lexemes generalizing start with
  | nil =>
    obtain rfl : start = stop := by simpa using h
    rfl
  | cons lexeme lexemes ih =>
    rw [walk_cons, Option.bind_eq_some_iff] at h
    obtain ⟨next, hstep, hrest⟩ := h
    rw [walk_cons, step_opened hstep, Option.bind_some]
    exact ih hrest

end Point

/-- Along a part of a phrase one leaves no parenthesis that was open before it. -/
theorem Derives.opened_of_walk {level : Level} {front back : List Lexeme} {tree : Expr}
    {nest : Nat} (h : Derives level (front ++ back) tree nest) {opened : Nat} {stop : Point}
    (hwalk : Point.walk ⟨.operand, opened⟩ front = some stop) : opened ≤ stop.opened := by
  have hall := h.walk 0
  rw [Point.walk_append, Option.bind_eq_some_iff] at hall
  obtain ⟨inner, hinner, -⟩ := hall
  have hopened := Point.walk_opened hinner opened
  rw [Nat.zero_add, hwalk] at hopened
  obtain rfl := Option.some.inj hopened
  exact Nat.le_add_left ..

namespace Level

variable {level below : Level} {item : Option Item} {lexeme : Lexeme}

/-- What ends a phrase of a level ends its last operand. -/
theorem Over.stops_below (hover : level.Over below) (hstops : level.Stops item) :
    below.Stops item := by
  cases hover with
  | expression =>
    obtain ⟨lexeme, hitem, hmultiplicative, -⟩ := hstops
    exact ⟨lexeme, hitem, hmultiplicative⟩
  | term => trivial

/-- An operator of a level does not end a phrase of the level. -/
theorem not_stops_of_isOp (hop : level.isOp lexeme.token) : ¬ level.Stops (some (.ok lexeme)) := by
  intro hstops
  cases level with
  | expression =>
    obtain ⟨other, hother, -, hadditive⟩ := hstops
    cases hother
    exact hadditive hop
  | term =>
    obtain ⟨other, hother, hmultiplicative⟩ := hstops
    cases hother
    exact hmultiplicative hop
  | factor => cases hop

end Level

/-- If a part of a phrase leads past an operand and leaves no parenthesis open, then no
phrase of the level ends there: the next token goes on with it. -/
theorem Derives.not_stops {level : Level} {lexemes : List Lexeme} {tree : Expr} {nest : Nat}
    (h : Derives level lexemes tree nest) {front back : List Lexeme} {lexeme : Lexeme}
    (hsplit : front ++ lexeme :: back = lexemes)
    (hwalk : Point.walk ⟨.operand, 0⟩ front = some ⟨.operator, 0⟩) :
    ¬ level.Stops (some (.ok lexeme)) := by
  -- On the phrase; the part ends inside one of its operands or in front of an operator.
  induction h generalizing front back lexeme with
  | integer =>
    cases front with
    | nil => cases hwalk
    | cons first front => simp at hsplit
  | sign hop _ ih =>
    cases front with
    | nil => cases hwalk
    | cons first front =>
      obtain ⟨rfl, hrest⟩ := List.cons.inj hsplit
      rw [Point.walk_cons, Point.step_sign hop, Option.bind_some] at hwalk
      exact ih hrest hwalk
  | @group start stop inner tree nest hinner _ =>
    cases front with
    | nil => cases hwalk
    | cons first front =>
      -- Inside the parentheses one of them is still open.
      rw [List.cons_append, List.cons.injEq] at hsplit
      obtain ⟨rfl, hrest⟩ := hsplit
      have hprefix : front <+: inner := by
        have hfront : front <+: inner ++ [⟨.rparen, stop⟩] := hrest ▸ List.prefix_append ..
        refine List.prefix_of_prefix_length_le hfront (List.prefix_append ..) ?_
        have hlength := congrArg List.length hrest
        simp only [List.length_append, List.length_cons, List.length_nil] at hlength
        omega
      obtain ⟨others, rfl⟩ := hprefix
      have hopen : Point.walk ⟨.operand, 1⟩ front = some ⟨.operator, 0⟩ := hwalk
      cases hinner.opened_of_walk hopen
  | single hover _ ih => exact fun hstops => ih hsplit hwalk (hover.stops_below hstops)
  | @operator level below op position lefts rights left right m n hover hleft hop _ ihl ihr =>
    rcases List.append_eq_append_iff.mp hsplit with
      ⟨others, hlefts, hrest⟩ | ⟨others, hfront, hrest⟩
    · cases others with
      | nil =>
        obtain ⟨rfl, -⟩ := List.cons.inj hrest
        exact Level.not_stops_of_isOp hop
      | cons other others =>
        obtain ⟨rfl, -⟩ := List.cons.inj hrest
        exact ihl hlefts.symm hwalk
    · cases others with
      | nil =>
        obtain ⟨rfl, -⟩ := List.cons.inj hrest
        exact Level.not_stops_of_isOp hop
      | cons other others =>
        obtain ⟨rfl, hrights⟩ := List.cons.inj hrest
        rw [hfront, Point.walk_append, hleft.walk, Option.bind_some, Point.walk_cons,
          Point.step_isOp hop, Option.bind_some] at hwalk
        exact fun hstops => ihr hrights.symm hwalk (hover.stops_below hstops)

/-- Of two lists that a feed holds at one place, the shorter is a beginning of the other. -/
theorem Feed.Holds.isPrefix {feed : Feed} {start : Nat} {firsts others : List Lexeme}
    (hfirsts : feed.Holds start firsts) (hothers : feed.Holds start others)
    (hlength : firsts.length ≤ others.length) : firsts <+: others := by
  induction firsts generalizing start others with
  | nil => exact List.nil_prefix
  | cons first firsts ih =>
    cases others with
    | nil => cases hlength
    | cons other others =>
      obtain ⟨hfirst, hrest⟩ := Feed.holds_cons.mp hfirsts
      obtain ⟨hother, hrest'⟩ := Feed.holds_cons.mp hothers
      obtain rfl : first = other := by simpa [hfirst] using hother
      have hshort : firsts.length ≤ others.length := by simpa using hlength
      exact List.cons_prefix_cons.mpr ⟨rfl, ih hrest hrest' hshort⟩

/-- A phrase that is followed by an item which ends its level is the longest phrase of the
level at its place. -/
theorem Derives.length_le {feed : Feed} {level : Level} {start : Nat} {used others : List Lexeme}
    {tree other : Expr} {nest n : Nat} (h : Derives level used tree nest)
    (hholds : feed.Holds start used) (hstops : level.Stops (feed.item (start + used.length)))
    (hother : Derives level others other n) (hothers : feed.Holds start others) :
    others.length ≤ used.length := by
  refine Nat.le_of_not_lt fun hlonger => ?_
  obtain ⟨rest, rfl⟩ := hholds.isPrefix hothers (Nat.le_of_lt hlonger)
  cases rest with
  | nil => simp at hlonger
  | cons lexeme back =>
    -- The longer phrase goes on with the very item that ends the shorter one.
    obtain ⟨-, hrest⟩ := Feed.holds_append.mp hothers
    obtain ⟨hitem, -⟩ := Feed.holds_cons.mp hrest
    rw [hitem] at hstops
    exact hother.not_stops rfl (h.walk 0) hstops

/-! ## What is used and what is left -/

/-- Read inside `depth` signs and parentheses, a phrase of the level has failed with this
error after the lexemes `used`, and `next` is the next item: what the error is about, but
for a tree that is too high. That is noticed when the last operand of its root has been
used, all of it and nothing else. -/
def Leaves (level : Level) (depth : Nat) (used : List Lexeme) (next : Option Item) :
    ParseError → Prop
  | .unexpectedToken _ found position => next = some (.ok ⟨found, position⟩)
  | .unexpectedTrailingTokens _ _ => False
  | .lexical error => next = some (.error error)
  | .unexpectedEndOfInput => next = none
  | .nestingTooDeep position =>
    (∃ lexeme nest opened, next = some (.ok lexeme) ∧ lexeme.position = position ∧
      Begun level used nest ⟨.operand, opened⟩ ∧ 256 < nest + depth) ∨
    ∃ op last, TooHigh level used next op last ∧ op.position = position

/-- Read from item `start` on, inside `depth` signs and parentheses, a phrase of the level
has ended with this result, and `stop` is the index of the next item. All items between
have been used. If there is a tree, they are a phrase of it, the next item is a lexeme that
cannot make it longer, and no phrase of the level at this place is longer. -/
def Consumes (feed : Feed) (level : Level) (depth start stop : Nat)
    (result : Except ParseError Expr) : Prop :=
  ∃ used, feed.Holds start used ∧ stop = start + used.length ∧
    match result with
    | .ok tree =>
      (∃ nest, Derives level used tree nest) ∧ level.Stops (feed.item stop) ∧
        ∀ others other n, feed.Holds start others → Derives level others other n →
          others.length ≤ used.length
    | .error error => Leaves level depth used (feed.item stop) error

/-- What an outcome says about the items that have been used. -/
theorem Outcome.consumes {feed : Feed} {level : Level} {depth : Nat} {cursor : Cursor}
    {outcome : Except ParseError Expr × Cursor}
    (h : Outcome feed level (Parser.room depth) cursor outcome) :
    Consumes feed level depth cursor.next outcome.2.next outcome.1 := by
  cases h with
  | @phrase used tree nest hholds hderives _ _ hstops =>
    have hnext : (level.leave (cursor.use used)).next = cursor.next + used.length := by simp
    refine ⟨used, hholds, hnext, ⟨nest, hderives⟩, hnext ▸ hstops, ?_⟩
    intro others other n hothers hother
    exact hderives.length_le hholds hstops hother hothers
  | @unexpected used _ _ _ lexeme hholds _ hitem =>
    have hnext : (cursor.use used).look.next = cursor.next + used.length := by simp
    exact ⟨used, hholds, hnext, hnext ▸ hitem⟩
  | @lexical used _ _ _ hholds _ hitem =>
    have hnext : (cursor.use used).look.next = cursor.next + used.length := by simp
    exact ⟨used, hholds, hnext, hnext ▸ hitem⟩
  | @ended used _ _ hholds _ hitem =>
    have hnext : (cursor.use used).next = cursor.next + used.length := by simp
    exact ⟨used, hholds, hnext, hnext ▸ hitem⟩
  | @nested used opened lexeme hholds hbegun hitem =>
    have hnext : (cursor.use used).look.next = cursor.next + used.length := by simp
    refine ⟨used, hholds, hnext, .inl ⟨lexeme, _, opened, hnext ▸ hitem, rfl, hbegun, ?_⟩⟩
    unfold Parser.room maxNesting
    omega
  | @tall used op last hholds hhigh =>
    have hnext : (last.leave (cursor.use used)).next = cursor.next + used.length := by
      rw [Level.next_leave, Cursor.next_use]
    exact ⟨used, hholds, hnext, .inr ⟨op, last, hnext ▸ hhigh, rfl⟩⟩

/-- Started anywhere in any feed, inside any number of signs and parentheses, the parsers of
expressions and of terms use exactly the longest phrase there and leave the lexeme after it.
If they fail, what the error is about is still the next item, or all operands of an operator
have just been used and nothing after them. -/
theorem parsers_consume (feed : Feed) (depth : Nat) (cursor : Cursor) :
    Consumes feed .expression depth cursor.next (Parser.expression depth feed cursor).2.next
        (Parser.expression depth feed cursor).1 ∧
      Consumes feed .term depth cursor.next (Parser.term depth feed cursor).2.next
        (Parser.term depth feed cursor).1 :=
  ⟨(Level.outcome feed .expression (Parser.room depth) cursor).consumes,
    (Level.outcome feed .term (Parser.room depth) cursor).consumes⟩

end Abacus
