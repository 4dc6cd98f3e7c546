import Abacus.Error

/-!
# Feeds of lexer items

Where a parser takes its tokens from: a source text, a finite list or any
endless sequence.

* `Item` — a lexeme, or the lexical error met in its place.
* `Feed` — items by index. A feed may be endless; one that has ended stays
  ended.
-/

namespace Abacus

/-- One element of a feed. -/
abbrev Item := Except LexError Lexeme

/-- Items by index. `none` is the end of the feed, after which nothing comes. -/
structure Feed where
  item : Nat → Option Item
  ended : ∀ n, item n = none → item (n + 1) = none

namespace Feed

/-- A feed that never ends. -/
def endless (item : Nat → Item) : Feed where
  item n := some (item n)
  ended := by simp

/-- The items of an array, one after another. -/
def ofItems (items : Array Item) : Feed where
  item n := items[n]?
  ended n h := by
    simp only [Array.getElem?_eq_none_iff] at h ⊢
    omega

/-- The given lexemes, and then one item for ever. -/
def followedBy (lexemes : Array Lexeme) (tail : Item) : Feed :=
  endless fun n => (lexemes[n]?.map Except.ok).getD tail

/-- The first `count` items; fewer if the feed ends before. -/
def take (feed : Feed) (count : Nat) : List Item :=
  (List.range count).filterMap feed.item

@[simp] theorem item_endless (item : Nat → Item) (n : Nat) :
    (endless item).item n = some (item n) := rfl

@[simp] theorem item_ofItems (items : Array Item) (n : Nat) :
    (ofItems items).item n = items[n]? := rfl

/-- A feed that has ended stays at its end. -/
theorem item_eq_none_of_le (feed : Feed) {m n : Nat} (hmn : m ≤ n)
    (h : feed.item m = none) : feed.item n = none := by
  induction n with
  | zero =>
    have : m = 0 := by omega
    exact this ▸ h
  | succ n ih =>
    by_cases hm : m = n + 1
    · exact hm ▸ h
    · exact feed.ended n (ih (by omega))

end Feed

end Abacus
