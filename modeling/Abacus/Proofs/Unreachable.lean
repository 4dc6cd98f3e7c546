import Abacus.Proofs.Diagnostics
import Abacus.Proofs.Parser.Consumption

/-!
# Errors that do not occur

* `Cursor.Clean` — no item that has been pulled is an error.
* `Parser.clean_or_lexical` — an error of the feed ends the parsing as soon as it is pulled.
* `Feed.RepeatsFirst` — from its first error on, a feed gives only this error.
* `Expr.WellFormed.evaluate_ne_internal` — the evaluator knows the tokens of every tree that
  the parser builds.
* `unreachable_errors` — so some of the errors that there are for feeds and for trees are
  the errors of no text.
-/

namespace Abacus

/-! ## Errors that are pulled -/

/-- All items that have been used have been pulled, and none that has been pulled is an
error. -/
structure Cursor.Clean (cursor : Cursor) (feed : Feed) : Prop where
  next_le : cursor.next ≤ cursor.pulled
  ne_error : ∀ n < cursor.pulled, ∀ error, feed.item n ≠ some (.error error)

namespace Cursor.Clean

variable {cursor : Cursor} {feed : Feed} {level : Level} {lexeme : Lexeme} {lexemes : List Lexeme}

theorem startingAt_zero : (startingAt 0).Clean feed where
  next_le := Nat.le_refl _
  ne_error n hn := absurd hn (Nat.not_lt_zero n)

/-- A look at a lexeme pulls no error. -/
theorem look (h : cursor.Clean feed) (hitem : feed.item cursor.next = some (.ok lexeme)) :
    cursor.look.Clean feed where
  next_le := Nat.le_trans h.next_le (Nat.le_max_left _ _)
  ne_error n hn error herror := by
    have hpulled : n < max cursor.pulled (cursor.next + 1) := hn
    by_cases hbefore : n < cursor.pulled
    · exact h.ne_error n hbefore error herror
    · have hnext := h.next_le
      obtain rfl : n = cursor.next := by omega
      rw [hitem] at herror
      cases herror

/-- The use of a lexeme pulls no error. -/
theorem useOne (h : cursor.Clean feed) (hitem : feed.item cursor.next = some (.ok lexeme)) :
    (cursor.useOne lexeme).Clean feed := by
  refine ⟨?_, ?_⟩
  · rw [pulled_useOne, next_useOne]
    exact Nat.le_max_right _ _
  · rw [pulled_useOne]
    exact (h.look hitem).ne_error

theorem use (h : cursor.Clean feed) (hholds : feed.Holds cursor.next lexemes) :
    (cursor.use lexemes).Clean feed := by
  induction lexemes generalizing cursor with
  | nil => exact h
  | cons lexeme lexemes ih =>
    obtain ⟨hitem, hrest⟩ := Feed.holds_cons.mp hholds
    exact ih (h.useOne hitem) (by rwa [next_useOne])

/-- At the end of a phrase the parser has looked at a lexeme, if it has looked at all. -/
theorem leave (h : cursor.Clean feed) (hstops : level.Stops (feed.item cursor.next)) :
    (level.leave cursor).Clean feed := by
  cases level with
  | factor => exact h
  | term | expression =>
    obtain ⟨lexeme, hitem, -⟩ := hstops
    exact h.look hitem

end Cursor.Clean

namespace Parser

variable {feed : Feed} {result : Except ParseError Expr} {final : Cursor} {n : Nat}
  {error : LexError}

/-- A parser that has pulled an error fails with this error. -/
theorem clean_or_lexical {level : Level} {room : Nat} {cursor : Cursor}
    (h : Outcome feed level room cursor (result, final)) (hclean : cursor.Clean feed) :
    final.Clean feed ∨ ∃ cause, result = .error (.lexical cause) ∧
      ∀ n < final.pulled, ∀ error, feed.item n = some (.error error) → error = cause := by
  cases h with
  | phrase hholds _ _ _ hstops => exact .inl ((hclean.use hholds).leave (by simpa using hstops))
  | unexpected hholds _ hitem => exact .inl ((hclean.use hholds).look (by simpa using hitem))
  | ended hholds => exact .inl (hclean.use hholds)
  | nested hholds _ hitem => exact .inl ((hclean.use hholds).look (by simpa using hitem))
  | tall hholds hhigh =>
    exact .inl ((hclean.use hholds).leave (by simpa using hhigh.stops))
  | @lexical used _ _ cause hholds _ hitem =>
    refine .inr ⟨cause, rfl, ?_⟩
    intro n hn error herror
    have hused := hclean.use hholds
    have hpulled : n < max (cursor.use used).pulled ((cursor.use used).next + 1) := hn
    have hnext := hused.next_le
    -- Everything in front of the error has been used.
    have hlast : n = (cursor.use used).next := by
      by_cases hbefore : n < (cursor.use used).pulled
      · exact absurd herror (hused.ne_error n hbefore error)
      · omega
    rw [hlast, Cursor.next_use, hitem] at herror
    exact (Except.error.inj (Option.some.inj herror)).symm

/-- The parsing of a whole feed ends with the first error that it pulls. -/
theorem parse_eq_of_pulled (hpulled : n < (parseFrom 0 feed).2.pulled)
    (hitem : feed.item n = some (.error error)) : parse feed = .error (.lexical error) := by
  have houtcome := parseFrom_outcome 0 feed
  rw [parse]
  rcases hrun : parseFrom 0 feed with ⟨result, final⟩
  rw [hrun] at houtcome hpulled
  cases houtcome with
  | accepted hholds =>
    -- What is looked at behind an expression is a lexeme.
    obtain ⟨hused, heof⟩ := Feed.holds_concat.mp hholds
    have hclean := (Cursor.Clean.startingAt_zero.use hused).look (by rwa [Cursor.next_use])
    exact absurd hitem (hclean.ne_error n hpulled error)
  | trailing hholds _ hnext =>
    have hclean := (Cursor.Clean.startingAt_zero.use hholds).look (by rwa [Cursor.next_use])
    exact absurd hitem (hclean.ne_error n hpulled error)
  | failed h =>
    rcases clean_or_lexical h .startingAt_zero with hclean | ⟨lexical, hcause, hsame⟩
    · exact absurd hitem (hclean.ne_error n hpulled error)
    · rw [hcause, hsame n hpulled error hitem]

end Parser

/-! ## Texts -/

/-- From its first error on, the feed gives only this error. -/
def Feed.RepeatsFirst (feed : Feed) (error : LexError) : Prop :=
  ∃ n, (∀ m < n, ∃ lexeme, feed.item m = some (.ok lexeme)) ∧
    ∀ m, n ≤ m → feed.item m = some (.error error)

namespace Source

variable {source : String} {error : LexError} {n : Nat}

/-- An error of a text is all that comes after the lexemes. -/
theorem repeatsFirst_of_item (h : (Feed.ofSource source).item n = some (.error error)) :
    (Feed.ofSource source).RepeatsFirst error := by
  have hbefore {m : Nat} (hm : m < (scan source).lexemes.length) :
      ∃ lexeme, (Feed.ofSource source).item m = some (.ok lexeme) := by
    rw [item_ofSource, Reading.item, List.getElem?_eq_getElem hm]
    exact ⟨_, rfl⟩
  have hafter {m : Nat} (hm : (scan source).lexemes.length ≤ m) :
      (Feed.ofSource source).item m = some (scan source).tail := by
    rw [item_ofSource, Reading.item, List.getElem?_eq_none hm]
    rfl
  have hlast : (scan source).lexemes.length ≤ n := by
    refine Nat.le_of_not_lt fun hn => ?_
    obtain ⟨lexeme, hlexeme⟩ := hbefore hn
    rw [h] at hlexeme
    cases hlexeme
  have htail : some (scan source).tail = some (.error error) := (hafter hlast).symm.trans h
  exact ⟨_, fun m => hbefore, fun m hm => (hafter hm).trans htail⟩

/-- The feed of a text never ends. -/
theorem parse_ne_unexpectedEndOfInput :
    parse (.ofSource source) ≠ .error .unexpectedEndOfInput := by
  intro h
  have houtcome := parse_outcome (.ofSource source)
  rw [h] at houtcome
  cases houtcome with
  | failed h =>
    cases h with
    | ended _ _ hitem => cases hitem

/-- Only an error of the feed is a lexical error of the parser. -/
theorem exists_item_of_parse (h : parse (.ofSource source) = .error (.lexical error)) :
    ∃ n, (Feed.ofSource source).item n = some (.error error) := by
  have houtcome := parse_outcome (.ofSource source)
  rw [h] at houtcome
  cases houtcome with
  | failed h =>
    cases h with
    | lexical _ _ hitem => exact ⟨_, hitem⟩

end Source

/-- The evaluator knows the tokens of every tree that the parser builds. -/
theorem Expr.WellFormed.evaluate_ne_internal {tree : Expr} (hwf : tree.WellFormed)
    (details : String) (position : Nat) : tree.evaluate ≠ .error (.internal details position) := by
  intro h
  rcases exists_isAt_of_evaluate hwf h with ⟨lexeme, -, hat⟩ | ⟨-, hoverflow⟩
  · cases hat
  · cases hoverflow

theorem wellFormed_of_parse {feed : Feed} {tree : Expr} (h : parse feed = .ok tree) :
    tree.WellFormed := by
  have houtcome := parse_outcome feed
  rw [h] at houtcome
  cases houtcome with
  | accepted _ hderives => exact hderives.wellFormed

/-- Every tree of the parser is one for the evaluator, whatever the feed is, and so no text
has an internal error. No text ends without the end of the input. An error of the feed that
the parser pulls is the error of the text, and never one of the parser; it is what the feed
repeats from its first error on. -/
theorem unreachable_errors :
    (∀ (feed : Feed) (tree : Expr), parse feed = .ok tree →
      tree.WellFormed ∧
        ∀ details position, tree.evaluate ≠ .error (.internal details position)) ∧
    ∀ source : String,
      (∀ details position, interpret source ≠ .error (.eval (.internal details position))) ∧
      interpret source ≠ .error (.parse .unexpectedEndOfInput) ∧
      (∀ error, interpret source ≠ .error (.parse (.lexical error))) ∧
      (∀ n error, n < (parseFrom 0 (.ofSource source)).2.pulled →
        (Feed.ofSource source).item n = some (.error error) →
        interpret source = .error (.lex error)) ∧
      ∀ error,
        (parse (.ofSource source) = .error (.lexical error) ↔
          interpret source = .error (.lex error)) ∧
        (interpret source = .error (.lex error) →
          (Feed.ofSource source).RepeatsFirst error) := by
  have htree (feed : Feed) (tree : Expr) (h : parse feed = .ok tree) : tree.WellFormed ∧
      ∀ details position, tree.evaluate ≠ .error (.internal details position) :=
    ⟨wellFormed_of_parse h, (wellFormed_of_parse h).evaluate_ne_internal⟩
  refine ⟨htree, ?_⟩
  intro source
  refine ⟨?_, ?_, ?_, ?_, ?_⟩
  · intro details position h
    obtain ⟨tree, hparse, hevaluate⟩ := interpret_eq_eval h
    exact (htree _ tree hparse).2 details position hevaluate
  · intro h
    exact Source.parse_ne_unexpectedEndOfInput (interpret_eq_parse h).1
  · intro error h
    exact (interpret_eq_parse h).2 error rfl
  · intro n error hpulled hitem
    exact interpret_eq_lex.mpr (Parser.parse_eq_of_pulled hpulled hitem)
  · intro error
    refine ⟨interpret_eq_lex.symm, ?_⟩
    intro h
    obtain ⟨n, hitem⟩ := Source.exists_item_of_parse (interpret_eq_lex.mp h)
    exact Source.repeatsFirst_of_item hitem

/-- A tree from two items has no internal error. A stray character in a text is its error as
soon as it is pulled. -/
theorem unreachable_errors_stray_character :
    (parse (.ofItems #[.ok ⟨.integer 1, 0⟩, .ok ⟨.eof, 1⟩]) = .ok (.literal (.integer 1) 0) ∧
      ∀ details position,
        (Expr.literal (.integer 1) 0).evaluate ≠ .error (.internal details position)) ∧
    interpret "(1 + $" = .error (.lex (.unexpectedCharacter '$' 5)) ∧
      (Feed.ofSource "(1 + $").RepeatsFirst (.unexpectedCharacter '$' 5) := by
  obtain ⟨htrees, htexts⟩ := unreachable_errors
  have hparse : parse (.ofItems #[.ok ⟨.integer 1, 0⟩, .ok ⟨.eof, 1⟩]) =
      .ok (.literal (.integer 1) 0) := by
    decide +kernel
  obtain ⟨-, -, -, hpulled, hlex⟩ := htexts "(1 + $"
  have herror : interpret "(1 + $" = .error (.lex (.unexpectedCharacter '$' 5)) :=
    hpulled 3 _ (by decide +kernel) (by decide +kernel)
  exact ⟨⟨hparse, (htrees _ _ hparse).2⟩, herror, (hlex _).2 herror⟩

end Abacus
