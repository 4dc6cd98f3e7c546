import Abacus.Proofs.Parser.Acceptance

/-!
# Inputs one after another

Several inputs can be read off one feed, each from where the one before has left it. What
has been looked at and not used is gone for the next one.

* `Segment` — lexemes that are an input by themselves.
* `parseRepeatedly` — as many inputs as are asked for.
* `Segment.parseFrom_eq`, `parseRepeatedly_segments` — segments are read one by one, and nothing
  behind the last of them is touched.
* `Peeks`, `Pulls` — the item that has been looked at and not used, for each result.
* `parses_in_sequence` — the reading of segments, and what one call pulls on any feed.
-/

namespace Abacus

/-! ## Segments -/

/-- Lexemes that end with the end of the input, their only one, and that are parsed as a tree. -/
structure Segment where
  /-- What stands in front of the end of the input. -/
  used : List Lexeme
  /-- Where the end of the input is. -/
  position : Nat
  tree : Expr
  ne_eof : ∀ lexeme ∈ used, lexeme.token ≠ .eof
  parse_eq :
    parse (.ofItems ((used ++ [Lexeme.mk .eof position]).map Except.ok).toArray) = .ok tree

/-- All lexemes of a segment. -/
def Segment.lexemes (segment : Segment) : List Lexeme :=
  segment.used ++ [⟨.eof, segment.position⟩]

/-- The results of `count` inputs, the first of them from item `start` on and each other from
the first item that the one before has not pulled; and the index of the first item that none
of them has pulled. -/
def parseRepeatedly (feed : Feed) : Nat → Nat → List (Except ParseError Expr) × Nat
  | 0, start => ([], start)
  | count + 1, start =>
    let outcome := parseFrom start feed
    let rest := parseRepeatedly feed count outcome.2.pulled
    (outcome.1 :: rest.1, rest.2)

/-- A list holds the lexemes that it begins with. -/
theorem Feed.holds_ofItems {lexemes others : List Lexeme} :
    (ofItems (lexemes.map Except.ok).toArray).Holds 0 others ↔ others <+: lexemes := by
  rw [List.prefix_iff_getElem?]
  unfold Holds
  simp

namespace Segment

variable {feed : Feed} {start : Nat}

/-- A segment is an expression within the limits. -/
theorem exists_derives (segment : Segment) :
    ∃ nest, Derives .expression segment.used segment.tree nest ∧ nest ≤ maxNesting ∧
      segment.tree.depth ≤ maxDepth := by
  have houtcome := parse_outcome (.ofItems (segment.lexemes.map Except.ok).toArray)
  rw [lexemes, segment.parse_eq] at houtcome
  cases houtcome with
  | @accepted used _ nest position hholds hderives hnest hdepth =>
    -- What has been read reaches to the end of the input, and there is only one.
    rcases List.prefix_concat_iff.mp (Feed.holds_ofItems.mp hholds) with hall | hfront
    · obtain ⟨hused, -⟩ := List.append_inj' hall rfl
      exact ⟨nest, hused ▸ hderives, hnest, hdepth⟩
    · have heof : ⟨.eof, position⟩ ∈ segment.used := hfront.subset (by simp)
      exact absurd rfl (segment.ne_eof _ heof)

/-- A segment is parsed as its tree wherever it stands, and nothing else is pulled. -/
theorem parseFrom_eq (segment : Segment) (hholds : feed.Holds start segment.lexemes) :
    parseFrom start feed =
      (.ok segment.tree, ((Cursor.startingAt start).use segment.used).look) := by
  obtain ⟨nest, hderives, hnest, hdepth⟩ := segment.exists_derives
  exact hderives.parseFrom_run hnest hdepth hholds

end Segment

namespace Cursor

variable {start : Nat} {used : List Lexeme}

theorem next_used : ((startingAt start).use used).next = start + used.length :=
  next_use _ _

theorem eaten_used :
    ((startingAt start).use used).eaten.toList = used.filter (·.token.isRecorded) := by
  rw [eaten_use]
  rfl

theorem pulled_used : ((startingAt start).use used).pulled = start + used.length :=
  pulled_use _ rfl

theorem pulled_used_look : ((startingAt start).use used).look.pulled = start + used.length + 1 := by
  unfold look
  rw [pulled_used, next_used]
  exact Nat.max_eq_right (Nat.le_succ _)

end Cursor

/-- Segments that stand one behind the other are read one by one. The next item is then the
one behind the last of them. -/
theorem parseRepeatedly_segments {feed : Feed} (segments : List Segment) (start : Nat)
    (hholds : feed.Holds start (segments.flatMap Segment.lexemes)) :
    parseRepeatedly feed segments.length start =
      (segments.map fun segment => .ok segment.tree,
        start + (segments.flatMap Segment.lexemes).length) := by
  induction segments generalizing start with
  | nil => rfl
  | cons segment segments ih =>
    rw [List.flatMap_cons, Feed.holds_append] at hholds
    obtain ⟨hfirst, hrest⟩ := hholds
    have hpulled : ((Cursor.startingAt start).use segment.used).look.pulled =
        start + segment.lexemes.length := by
      rw [Cursor.pulled_used_look, Segment.lexemes, List.length_append, Nat.add_assoc]
      rfl
    simp only [List.length_cons, parseRepeatedly, segment.parseFrom_eq hfirst, hpulled, ih _ hrest,
      List.map_cons, List.flatMap_cons, List.length_append, Nat.add_assoc]

/-! ## What one call pulls -/

/-- With this result, after the lexemes `used`, the parser has looked at `peeked` and not used
it: what the result is about. `next` is the next item of the feed, whether it has been looked
at or not. -/
def Peeks (used : List Lexeme) (next peeked : Option Item) : Except ParseError Expr → Prop
  | .ok _ => ∃ position, peeked = some (.ok ⟨.eof, position⟩)
  | .error (.unexpectedToken _ found position) => peeked = some (.ok ⟨found, position⟩)
  | .error (.unexpectedTrailingTokens found position) => peeked = some (.ok ⟨found, position⟩)
  | .error (.lexical error) => peeked = some (.error error)
  | .error .unexpectedEndOfInput => peeked = none ∧ next = none
  | .error (.nestingTooDeep position) =>
    (∃ lexeme nest opened, peeked = some (.ok lexeme) ∧ lexeme.position = position ∧
      Begun .expression used nest ⟨.operand, opened⟩ ∧ 256 < nest) ∨
    -- Behind a tree that is too high the parser may have looked or not.
    ∃ op last, TooHigh .expression used next op last ∧ op.position = position

/-- The parsing of the input at item `start` has ended like this. It has used the lexemes `used`,
recorded those that are no operators, and looked at `peeked` behind them, if at anything. It has
pulled no other item. -/
structure Pulls (feed : Feed) (start : Nat) (used : List Lexeme) (peeked : Option Item)
    (outcome : Except ParseError Expr × Cursor) : Prop where
  holds : feed.Holds start used
  ne_eof : ∀ lexeme ∈ used, lexeme.token ≠ .eof
  next_eq : outcome.2.next = start + used.length
  eaten_eq : outcome.2.eaten.toList = used.filter (·.token.isRecorded)
  item_eq : ∀ item ∈ peeked, feed.item (start + used.length) = some item
  pulled_eq : outcome.2.pulled = start + used.length + peeked.toList.length
  peeks : Peeks used (feed.item (start + used.length)) peeked outcome.1

namespace Pulls

variable {feed : Feed} {start : Nat} {used : List Lexeme} {stop : Point} {item : Item}
  {result : Except ParseError Expr}

/-- What is pulled if the parser ends with a look at the next item. -/
theorem look (hholds : feed.Holds start used) (hwalk : Point.walk ⟨.operand, 0⟩ used = some stop)
    (hitem : feed.item (start + used.length) = some item)
    (hpeeks : Peeks used (some item) (some item) result) :
    Pulls feed start used (some item) (result, ((Cursor.startingAt start).use used).look) where
  holds := hholds
  ne_eof := Point.ne_eof_of_walk hwalk
  next_eq := Cursor.next_used
  eaten_eq := Cursor.eaten_used
  item_eq := by
    rintro _ ⟨⟩
    exact hitem
  pulled_eq := Cursor.pulled_used_look
  peeks := hitem ▸ hpeeks

/-- What is pulled if the parser ends without a look at the next item. -/
theorem stay (hholds : feed.Holds start used) (hwalk : Point.walk ⟨.operand, 0⟩ used = some stop)
    (hpeeks : Peeks used (feed.item (start + used.length)) none result) :
    Pulls feed start used none (result, (Cursor.startingAt start).use used) where
  holds := hholds
  ne_eof := Point.ne_eof_of_walk hwalk
  next_eq := Cursor.next_used
  eaten_eq := Cursor.eaten_used
  item_eq := nofun
  pulled_eq := Cursor.pulled_used
  peeks := hpeeks

end Pulls

/-- Whatever the feed and the result are, at most one item is pulled behind those that are used:
the one that the result is about. -/
theorem exists_pulls (feed : Feed) (start : Nat) :
    ∃ used peeked, Pulls feed start used peeked (parseFrom start feed) := by
  have houtcome := parseFrom_outcome start feed
  rcases hrun : parseFrom start feed with ⟨result, final⟩
  rw [hrun] at houtcome
  cases houtcome with
  | @accepted used _ _ position hholds hderives =>
    obtain ⟨hused, heof⟩ := Feed.holds_concat.mp hholds
    exact ⟨_, _, .look hused (hderives.walk 0) heof ⟨position, rfl⟩⟩
  | trailing hholds hderives hitem => exact ⟨_, _, .look hholds (hderives.walk 0) hitem rfl⟩
  | failed h =>
    cases h with
    | unexpected hholds hbegun hitem => exact ⟨_, _, .look hholds (hbegun.walk 0) hitem rfl⟩
    | lexical hholds hbegun hitem => exact ⟨_, _, .look hholds (hbegun.walk 0) hitem rfl⟩
    | ended hholds hbegun hitem => exact ⟨_, _, .stay hholds (hbegun.walk 0) ⟨rfl, hitem⟩⟩
    | nested hholds hbegun hitem =>
      exact ⟨_, _, .look hholds (hbegun.walk 0) hitem
        (.inl ⟨_, _, _, rfl, rfl, hbegun, by decide⟩)⟩
    | @tall used op last hholds hhigh =>
      obtain ⟨opened, hwalk⟩ := hhigh.walk
      have hpeeks (peeked : Option Item) : Peeks used (feed.item (start + used.length)) peeked
          (.error (.nestingTooDeep op.position)) := .inr ⟨op, last, hhigh, rfl⟩
      have hstops := hhigh.stops
      cases last with
      | factor => exact ⟨_, _, .stay hholds hwalk (hpeeks _)⟩
      | term | expression =>
        obtain ⟨lexeme, hitem, -⟩ := hstops
        exact ⟨_, _, .look hholds hwalk hitem (hitem ▸ hpeeks _)⟩

/-- Inputs that stand one behind the other in a feed are read one after another, and what comes
behind them stays in the feed. For every call on any feed, what it pulls is what it uses and at
most one item more: exactly one but for a tree that is too high, where there may be none, and for
a feed that ends, where there is none. -/
theorem parses_in_sequence :
    (∀ (feed : Feed) (segments : List Segment) (start : Nat),
      feed.Holds start (segments.flatMap Segment.lexemes) →
      parseRepeatedly feed segments.length start =
        (segments.map fun segment => .ok segment.tree,
          start + (segments.flatMap Segment.lexemes).length)) ∧
    ∀ (feed : Feed) (start : Nat),
      ∃ used peeked, Pulls feed start used peeked (parseFrom start feed) :=
  ⟨fun _ => parseRepeatedly_segments, exists_pulls⟩

/-- Two inputs and a parenthesis behind them. -/
theorem parses_in_sequence_two :
    let feed := Feed.ofItems #[.ok ⟨.integer 1, 0⟩, .ok ⟨.eof, 1⟩, .ok ⟨.minus, 0⟩,
      .ok ⟨.integer 2, 1⟩, .ok ⟨.eof, 2⟩, .ok ⟨.rparen, 5⟩]
    parseRepeatedly feed 2 0 =
      ([.ok (.literal (.integer 1) 0), .ok (.unary .minus (.literal (.integer 2) 1) 0)], 5) := by
  intro feed
  let first : Segment :=
    { used := [⟨.integer 1, 0⟩], position := 1, tree := .literal (.integer 1) 0
      ne_eof := by decide
      parse_eq := by cbv }
  let second : Segment :=
    { used := [⟨.minus, 0⟩, ⟨.integer 2, 1⟩], position := 2
      tree := .unary .minus (.literal (.integer 2) 1) 0
      ne_eof := by decide
      parse_eq := by cbv }
  have hholds : feed.Holds 0 ([first, second].flatMap Segment.lexemes) := by
    simp [feed, first, second, Segment.lexemes]
  exact parses_in_sequence.1 feed [first, second] 0 hholds

end Abacus
