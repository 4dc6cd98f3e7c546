import Abacus.Proofs.Parser.Outcome
import Abacus.Proofs.Parser.Unlimited

/-!
# Parsing without limits ends on feeds that end

* `Parser.Partial.Ends` — a computation ends, and what holds if it ends with a value.
* `Parser.Partial.Ends.bind` and the lemmas beside it — one rule for each way
  computations are put together.
* `Feed.Reads` — the items between two places of a feed are a phrase.
* `Level.ends` — on a feed that ends the parsers without limits end, and what they
  accept is a phrase that nothing after it would make longer.

The measure is the number of items that are left. Each sign, parenthesis and operator
uses one before the parsers go on.
-/

namespace Abacus

/-! ## Ending with a postcondition -/

namespace Parser

namespace Partial

/-- Started at the cursor, the computation ends, and if it ends with a value then `post`
holds of the value and the index of the next item. -/
def Ends {α : Type} (q : Partial α) (feed : Feed) (cursor : Cursor) (post : α → Nat → Prop) :
    Prop :=
  ∃ outcome, q feed cursor = some outcome ∧ ∀ a, outcome.1 = .ok a → post a outcome.2.next

namespace Ends

variable {α β : Type} {feed : Feed} {cursor : Cursor} {q : Partial α} {g : α → Partial β}
  {mid : α → Nat → Prop} {post : β → Nat → Prop}

theorem pure {b : β} (h : post b cursor.next) : Ends (pure b) feed cursor post := by
  refine ⟨(.ok b, cursor), rfl, ?_⟩
  rintro _ ⟨⟩
  exact h

theorem bind (hfirst : q.Ends feed cursor mid)
    (hnext : ∀ a next, mid a next.next → (g a).Ends feed next post) :
    (q >>= g).Ends feed cursor post := by
  rcases hfirst with ⟨⟨error | a, next⟩, hrun, hmid⟩
  · refine ⟨(.error error, next), ?_, fun b hb => by cases hb⟩
    rw [bind_run, hrun]
  · rcases hnext a next (hmid a rfl) with ⟨outcome, hrest, hpost⟩
    refine ⟨outcome, ?_, hpost⟩
    rw [bind_run, hrun]
    exact hrest

theorem ite {c : Prop} [Decidable c] {q q' : Partial β} (hthen : c → q.Ends feed cursor post)
    (helse : ¬ c → q'.Ends feed cursor post) : (if c then q else q').Ends feed cursor post := by
  split
  · exact hthen ‹_›
  · exact helse ‹_›

/-- To look at the next item leaves it in place. -/
theorem peek_bind {g : Lexeme → Partial β}
    (hnext : ∀ lexeme next, next.next = cursor.next → feed.item cursor.next = some (.ok lexeme) →
      (g lexeme).Ends feed next post) :
    (peek.ending >>= g).Ends feed cursor post := by
  have hpeek : peek.ending.Ends feed cursor fun lexeme next =>
      next = cursor.next ∧ feed.item cursor.next = some (.ok lexeme) := by
    refine ⟨_, rfl, ?_⟩
    intro lexeme hlexeme
    rcases hitem : feed.item cursor.next with _ | error | found
    · rw [peek_end hitem] at hlexeme
      cases hlexeme
    · rw [peek_error hitem] at hlexeme
      cases hlexeme
    · rw [peek_lexeme hitem] at hlexeme ⊢
      cases hlexeme
      exact ⟨rfl, rfl⟩
  exact hpeek.bind fun lexeme next h => hnext lexeme next h.1 h.2

theorem skip_bind {g : Unit → Partial β}
    (hnext : ∀ next, next.next = cursor.next + 1 → (g ()).Ends feed next post) :
    (skip.ending >>= g).Ends feed cursor post := by
  have hskip : skip.ending.Ends feed cursor fun _ next => next = cursor.next + 1 :=
    ⟨_, rfl, fun _ _ => rfl⟩
  exact hskip.bind fun _ next h => hnext next h

/-- To eat a lexeme uses it. -/
theorem eat_bind {expected : List Token.Kind} {g : Lexeme → Partial β}
    (hnext : ∀ lexeme next, next.next = cursor.next + 1 →
      feed.item cursor.next = some (.ok lexeme) → lexeme.token.kind ∈ expected →
      (g lexeme).Ends feed next post) :
    ((eat expected).ending >>= g).Ends feed cursor post := by
  have heat : (eat expected).ending.Ends feed cursor fun lexeme next =>
      next = cursor.next + 1 ∧ feed.item cursor.next = some (.ok lexeme) ∧
        lexeme.token.kind ∈ expected := by
    refine ⟨_, rfl, ?_⟩
    intro lexeme hlexeme
    rcases hitem : feed.item cursor.next with _ | error | found
    · rw [eat, bind_error (peek_end hitem)] at hlexeme
      cases hlexeme
    · rw [eat, bind_error (peek_error hitem)] at hlexeme
      cases hlexeme
    by_cases hkind : found.token.kind ∈ expected
    · rw [eat_lexeme hitem hkind] at hlexeme ⊢
      cases hlexeme
      exact ⟨rfl, rfl, hkind⟩
    · rw [eat_unexpected hitem hkind] at hlexeme
      cases hlexeme
  exact heat.bind fun lexeme next h => hnext lexeme next h.1 h.2.1 h.2.2

/-- A limit that is switched off stops nothing. -/
theorem limit_bind {most actual position : Nat} {g : Unit → Partial β}
    (h : (g ()).Ends feed cursor post) :
    (limit false most actual position >>= g).Ends feed cursor post := by
  rw [limit_bind_of_le fun hfalse => by cases hfalse]
  exact h

end Ends

end Partial

end Parser

/-- Where an item comes next, the feed has not ended. -/
theorem Feed.lt_of_item {feed : Feed} {n stop : Nat} {item : Item} (hend : feed.item stop = none)
    (hitem : feed.item n = some item) : n < stop := by
  by_cases hlt : n < stop
  · exact hlt
  · rw [feed.item_eq_none_of_le (Nat.le_of_not_lt hlt) hend] at hitem
    cases hitem

theorem Derives.ne_nil {level : Level} {lexemes : List Lexeme} {tree : Expr} {nest : Nat}
    (h : Derives level lexemes tree nest) : lexemes ≠ [] := by
  induction h with
  | single _ _ ih => exact ih
  | _ => simp

/-- The items from index `start` up to index `stop` are a phrase of the level with the
tree. -/
def Feed.Reads (feed : Feed) (level : Level) (start : Nat) (tree : Expr) (stop : Nat) : Prop :=
  ∃ used nest, feed.Holds start used ∧ Derives level used tree nest ∧ stop = start + used.length

namespace Feed.Reads

variable {feed : Feed} {level below : Level} {start middle stop : Nat} {left right tree : Expr}
  {lexeme : Lexeme}

theorem lt (h : feed.Reads level start tree stop) : start < stop := by
  rcases h with ⟨used, nest, -, hderives, rfl⟩
  have := List.length_pos_iff.mpr hderives.ne_nil
  omega

theorem integer {value : UInt64} {position : Nat}
    (hitem : feed.item start = some (.ok ⟨.integer value, position⟩)) :
    feed.Reads .factor start (.literal (.integer value) position) (start + 1) :=
  ⟨_, _, by simpa using hitem, .integer value position, rfl⟩

theorem sign (hitem : feed.item start = some (.ok lexeme)) (hop : lexeme.token.isAdditive)
    (h : feed.Reads .factor (start + 1) tree stop) :
    feed.Reads .factor start (.unary lexeme.token tree lexeme.position) stop := by
  rcases h with ⟨used, nest, hholds, hderives, rfl⟩
  refine ⟨lexeme :: used, nest + 1, Feed.holds_cons.mpr ⟨hitem, hholds⟩, .sign hop hderives, ?_⟩
  simp only [List.length_cons]
  omega

theorem group {opening closing : Nat} (hopening : feed.item start = some (.ok ⟨.lparen, opening⟩))
    (h : feed.Reads .expression (start + 1) tree stop)
    (hclosing : feed.item stop = some (.ok ⟨.rparen, closing⟩)) :
    feed.Reads .factor start tree (stop + 1) := by
  rcases h with ⟨used, nest, hholds, hderives, rfl⟩
  refine ⟨⟨.lparen, opening⟩ :: (used ++ [⟨.rparen, closing⟩]), nest + 1, ?_, .group hderives, ?_⟩
  · simpa using ⟨hopening, hholds, hclosing⟩
  · simp only [List.length_cons, List.length_append, List.length_nil]
    omega

theorem single (hover : level.Over below) (h : feed.Reads below start tree stop) :
    feed.Reads level start tree stop := by
  rcases h with ⟨used, nest, hholds, hderives, hstop⟩
  exact ⟨used, nest, hholds, .single hover hderives, hstop⟩

theorem operator (hover : level.Over below) (hleft : feed.Reads level start left middle)
    (hitem : feed.item middle = some (.ok lexeme)) (hop : level.isOp lexeme.token)
    (hright : feed.Reads below (middle + 1) right stop) :
    feed.Reads level start (.binary lexeme.token left right lexeme.position) stop := by
  rcases hleft with ⟨lefts, m, hlefts, hderives, rfl⟩
  rcases hright with ⟨rights, n, hrights, hderives', rfl⟩
  refine ⟨_, _, ?_, .operator hover hderives hop hderives', ?_⟩
  · simpa using ⟨hlefts, hitem, hrights⟩
  · simp only [List.length_append, List.length_cons]
    omega

end Feed.Reads

namespace Level

variable {feed : Feed} {stop count depth : Nat} {level below : Level}

/-- From index `start` up to index `stop` stands a phrase of the level, and the item there
cannot make it longer. -/
def Finds (level : Level) (feed : Feed) (start : Nat) (tree : Expr) (stop : Nat) : Prop :=
  feed.Reads level start tree stop ∧ level.Stops (feed.item stop)

/-- Reading on after a phrase ends as it should if the operands do on what is left of
the feed. -/
theorem rest_ends (hend : feed.item stop = none) (hover : level.Over below)
    (hbelow : ∀ cursor, stop - cursor.next < count →
      (below.phrase false depth).Ends feed cursor (below.Finds feed cursor.next))
    {start : Nat} {left : Expr} {cursor : Cursor} (hcount : stop - cursor.next ≤ count)
    (hleft : feed.Reads level start left cursor.next)
    (hstops : below.Stops (feed.item cursor.next)) :
    (level.phraseRest false depth below left).Ends feed cursor (level.Finds feed start) := by
  -- On the items that are left; an operator and an operand use some.
  induction hleftover : stop - cursor.next using Nat.strongRecOn generalizing left cursor with
  | ind leftover ih =>
  subst hleftover
  rw [phraseRest]
  refine .peek_bind ?_
  intro lexeme looked hlooked hitem
  have hlt : cursor.next < stop := Feed.lt_of_item hend hitem
  refine .ite (fun hop => ?_) (fun hop => ?_)
  · refine .skip_bind ?_
    intro next hnext
    rw [hlooked] at hnext
    refine (hbelow next (by omega)).bind ?_
    rintro right last ⟨hright, hend'⟩
    have := hright.lt
    refine .limit_bind (ih _ (by omega) (by omega) ?_ hend' rfl)
    exact hleft.operator hover hitem hop (hnext ▸ hright)
  · refine .pure ⟨hlooked ▸ hleft, ?_⟩
    rw [hlooked]
    exact hover.stops hitem hstops hop

/-- The phrases of a level end as they should if its operands do on no more of the feed. -/
theorem ends_of_below (hend : feed.item stop = none) (hover : level.Over below)
    (hbelow : ∀ cursor, stop - cursor.next ≤ count →
      (below.phrase false depth).Ends feed cursor (below.Finds feed cursor.next))
    (cursor : Cursor) (hcount : stop - cursor.next ≤ count) :
    (level.phrase false depth).Ends feed cursor (level.Finds feed cursor.next) := by
  rw [hover.phrase_eq]
  refine (hbelow cursor hcount).bind ?_
  rintro left next ⟨hleft, hstops⟩
  have := hleft.lt
  exact rest_ends hend hover (fun cursor hless => hbelow cursor (Nat.le_of_lt hless)) (by omega)
    (hleft.single hover) hstops

/-- A factor ends as it should if everything does on less of the feed. -/
theorem factor_ends (hend : feed.item stop = none)
    (hinner : ∀ (level : Level) (depth : Nat) (cursor : Cursor), stop - cursor.next < count →
      (level.phrase false depth).Ends feed cursor (level.Finds feed cursor.next))
    (depth : Nat) (cursor : Cursor) (hcount : stop - cursor.next ≤ count) :
    (factor.phrase false depth).Ends feed cursor (factor.Finds feed cursor.next) := by
  rw [phrase]
  refine .peek_bind ?_
  intro lexeme looked hlooked hitem
  have hlt : cursor.next < stop := Feed.lt_of_item hend hitem
  refine .limit_bind (.ite (fun hop => ?_) (fun _ => ?_))
  · -- A sign and the factor after it.
    refine .skip_bind ?_
    intro next hnext
    rw [hlooked] at hnext
    refine (hinner factor (depth + 1) next (by omega)).bind ?_
    rintro operand last ⟨hoperand, -⟩
    exact .limit_bind (.pure ⟨.sign hitem hop (hnext ▸ hoperand), trivial⟩)
  · -- An integer, or an expression between parentheses.
    refine .eat_bind ?_
    rintro ⟨token, position⟩ next hnext hfirst hkind
    rw [hlooked] at hnext hfirst
    refine .ite (fun hinteger => ?_) (fun hother => ?_)
    · cases token <;> simp only [Token.kind, reduceCtorEq] at hinteger
      exact .pure ⟨hnext ▸ .integer hfirst, trivial⟩
    · obtain rfl : token = .lparen := by cases token <;> simp_all [Token.kind]
      refine (hinner expression (depth + 1) next (by omega)).bind ?_
      rintro tree last ⟨htree, -⟩
      refine .eat_bind ?_
      rintro ⟨token, closing⟩ final hfinal hlast hkind
      obtain rfl : token = .rparen := by cases token <;> simp_all [Token.kind]
      exact .pure ⟨hfinal ▸ .group hfirst (hnext ▸ htree) hlast, trivial⟩

/-- On a feed that ends every parser without limits ends. What it accepts is a phrase
of its level, which nothing after it would make longer. -/
theorem ends (hend : feed.item stop = none) (level : Level) (depth : Nat) (cursor : Cursor) :
    (level.phrase false depth).Ends feed cursor (level.Finds feed cursor.next) := by
  induction hcount : stop - cursor.next using Nat.strongRecOn generalizing level depth cursor with
  | ind count ih =>
  -- A factor ends because every phrase inside it has fewer items left.
  have hfactor := factor_ends hend
    (fun level depth cursor hless => ih _ hless level depth cursor rfl) depth
  have hterm := ends_of_below hend .term hfactor
  cases level with
  | factor => exact hfactor cursor (Nat.le_of_eq hcount)
  | term => exact hterm cursor (Nat.le_of_eq hcount)
  | expression => exact ends_of_below hend .expression hterm cursor (Nat.le_of_eq hcount)

end Level

end Abacus
