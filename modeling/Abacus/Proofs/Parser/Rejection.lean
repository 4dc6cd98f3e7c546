import Abacus.Proofs.Parser.Outcome

/-!
# Where the parser gives up

* `Blames feed used error` — the error is about the item after the lexemes
  `used`, and that item is the first that cannot be part of any expression.
* `parse_error_blames` — so is every error of the parser but the two limits.
-/

namespace Abacus

/-- The error is about the item of the feed that comes after the lexemes `used`.
These could still become an expression, and with that item they cannot. -/
def Blames (feed : Feed) (used : List Lexeme) : ParseError → Prop
  | .unexpectedToken expected found position =>
    feed.item used.length = some (.ok ⟨found, position⟩) ∧
      Viable used ∧ ¬ Complete used ∧ ¬ Viable (used ++ [⟨found, position⟩]) ∧
      ∀ kind ∈ expected, ∃ lexeme : Lexeme, lexeme.token.kind = kind ∧ Viable (used ++ [lexeme])
  | .unexpectedTrailingTokens found position =>
    feed.item used.length = some (.ok ⟨found, position⟩) ∧
      found ≠ .eof ∧ Complete used ∧ ¬ Viable (used ++ [⟨found, position⟩])
  | .lexical error => feed.item used.length = some (.error error) ∧ Viable used
  | .unexpectedEndOfInput => feed.item used.length = none ∧ Viable used
  | .nestingTooDeep _ => True

variable {feed : Feed} {room : Nat} {error : ParseError} {final : Cursor}

/-- An expression that fails, read from the start of a feed, fails at the first
hopeless item. -/
theorem Outcome.blames
    (h : Outcome feed .expression room (.startingAt 0) (.error error, final))
    (hlimit : ∀ position, error ≠ .nestingTooDeep position) :
    ∃ used, feed.Holds 0 used ∧ (∀ lexeme ∈ used, lexeme.token ≠ .eof) ∧
      Blames feed used error := by
  cases h with
  | @unexpected used nest place opened lexeme hholds hbegun hitem hrefused hopened =>
    have hwalk := hbegun.walk 0
    have hstuck : Point.step ⟨place, 0 + opened⟩ lexeme.token = none :=
      Point.step_of_not_allows hrefused
    -- What can follow the point is what the error expects, operators aside.
    refine ⟨used, hholds, Point.ne_eof_of_walk hwalk, by simpa [Cursor.startingAt] using hitem,
      hbegun.viable, hbegun.not_complete hopened, not_viable_of_stuck hwalk hstuck, ?_⟩
    intro kind hkind
    exact hbegun.viable_expected hopened hkind
  | @lexical used nest point error hholds hbegun hitem =>
    exact ⟨used, hholds, Point.ne_eof_of_walk (hbegun.walk 0),
      by simpa [Cursor.startingAt] using hitem, hbegun.viable⟩
  | @ended used nest point hholds hbegun hitem =>
    exact ⟨used, hholds, Point.ne_eof_of_walk (hbegun.walk 0),
      by simpa [Cursor.startingAt] using hitem, hbegun.viable⟩
  | nested => exact absurd rfl (hlimit _)
  | tall => exact absurd rfl (hlimit _)

/-- Unless a limit is exceeded, the parser fails at the first item that makes
the input hopeless: what it has used can become an expression, and together with
that item it cannot. -/
theorem parse_error_blames (feed : Feed) (error : ParseError) (hparse : parse feed = .error error)
    (hlimit : ∀ position, error ≠ .nestingTooDeep position) :
    ∃ used, feed.Holds 0 used ∧ (∀ lexeme ∈ used, lexeme.token ≠ .eof) ∧
      Blames feed used error := by
  have houtcome := parse_outcome feed
  rw [hparse] at houtcome
  cases houtcome with
  | failed h => exact h.blames hlimit
  | @trailing used tree nest lexeme hholds hderives hitem heof hadditive hmultiplicative =>
    -- No parenthesis is open, so only an operator could follow.
    have hwalk := hderives.walk 0
    have hstuck : Point.step ⟨.operator, 0⟩ lexeme.token = none :=
      Point.step_outside hadditive hmultiplicative
    exact ⟨used, hholds, Point.ne_eof_of_walk hwalk, hitem, heof, ⟨tree, nest, hderives⟩,
      not_viable_of_stuck hwalk hstuck⟩

/-- A parenthesis that is not closed is noticed at the end of the input. -/
theorem parse_open_group_blames :
    let feed := Feed.ofItems #[.ok ⟨.lparen, 0⟩, .ok ⟨.integer 1, 1⟩, .ok ⟨.eof, 2⟩]
    parse feed = .error (.unexpectedToken [.rparen] .eof 2) ∧
      ∃ used, feed.Holds 0 used ∧ (∀ lexeme ∈ used, lexeme.token ≠ .eof) ∧
        Blames feed used (.unexpectedToken [.rparen] .eof 2) := by
  intro feed
  have hparse : parse feed = .error (.unexpectedToken [.rparen] .eof 2) := by
    cbv
  exact ⟨hparse, parse_error_blames feed _ hparse fun _ h => by cases h⟩

end Abacus
