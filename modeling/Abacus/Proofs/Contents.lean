import Mathlib.Tactic.Common
import Abacus.Proofs.Interpretation
import Abacus.Proofs.Lexemes

/-!
# What a tree keeps of its text

* `Source.Expresses.digitRuns_eq`, `Source.Expresses.balanced` — the runs of digits and
  the parentheses in the text of an expression.
* `parse_keeps_lexemes` — the tree of a text has every token of it in its place, and
  nothing else.
-/

namespace Abacus

namespace Source.Expresses

variable {source : String} {lexemes : List Lexeme} {tree : Expr} {nest : Nat}

/-- The nodes of the tree stand one behind the other in the text. -/
theorem pairwise_inorder (h : Expresses source lexemes tree nest) :
    (tree.inorder.map Lexeme.position).Pairwise (· < ·) := by
  have hscan := pairwise_scanFrom 0 source.toList
  rw [show scanFrom 0 source.toList = _ from h.scan_eq] at hscan
  rw [h.derives.inorder_eq]
  exact List.pairwise_map.mpr (hscan.filter _)

/-- Each run of digits in the text is a leaf of the tree. -/
theorem literalCount_eq (h : Expresses source lexemes tree nest) :
    tree.literalCount = Text.digitRuns source.toList := by
  obtain ⟨d⟩ := Decomposition.exists_of_text source.toList
  obtain ⟨hrest, rfl⟩ := d.eq_of_scan h.scan_eq
  have htext : Text.digitRuns source.toList = Text.digitRuns (textOf d.pieces ++ d.rest) :=
    (congrArg Text.digitRuns d.text_eq).symm.trans (digitRuns_blanks d.blanks_maximal.mem)
  rw [htext, d.fits.digitRuns_eq (Text.byteLength d.blanks), h.derives.literalCount_eq, hrest]
  rfl

/-- The parentheses in the text are balanced. -/
theorem balanced (h : Expresses source lexemes tree nest) : Text.Balanced source.toList := by
  obtain ⟨d⟩ := Decomposition.exists_of_text source.toList
  obtain ⟨hrest, rfl⟩ := d.eq_of_scan h.scan_eq
  have htext := d.text_eq
  rw [hrest, List.append_nil] at htext
  have hpieces : Text.Opens 0 (textOf d.pieces) 0 :=
    Fits.opens_of_walk (hrest ▸ d.fits) _ (h.derives.walk 0)
  rw [Text.Balanced, ← htext]
  exact (opens_blanks d.blanks_maximal.mem).append hpieces

end Source.Expresses

/-- The nodes of the tree of a text are, in their order, the tokens in front of its end
without the parentheses, each with its own place. So no two of them have one place, there
are as many literals as runs of digits, and the parentheses are balanced. -/
theorem parse_keeps_lexemes {source : String} {tree : Expr}
    (hparse : parse (.ofSource source) = .ok tree) :
    (∃ lexemes stop, (Feed.ofSource source).Holds 0 (lexemes ++ [⟨.eof, stop⟩]) ∧
      (∀ lexeme ∈ lexemes, lexeme.token ≠ .eof) ∧ tree.inorder = meaningful lexemes) ∧
    (tree.inorder.map Lexeme.position).Pairwise (· < ·) ∧
    (tree.inorder.map Lexeme.position).Nodup ∧
    tree.literalCount = Text.digitRuns source.toList ∧ Text.Balanced source.toList := by
  obtain ⟨lexemes, nest, hexpresses, -, -⟩ := Source.exists_expresses hparse
  have hordered := hexpresses.pairwise_inorder
  refine ⟨⟨lexemes, _, hexpresses.holds, ?_, hexpresses.derives.inorder_eq⟩, hordered, ?_,
    hexpresses.literalCount_eq, hexpresses.balanced⟩
  · exact Point.ne_eof_of_walk (hexpresses.derives.walk 0)
  · exact hordered.imp Nat.ne_of_lt

/-- A sign, and a sum between parentheses. -/
theorem parse_keeps_lexemes_negated_sum :
    let tree : Expr := .binary .times (.unary .minus (.binary .plus (.literal (.integer 20) 2)
      (.literal (.integer 3) 7) 5) 0) (.literal (.integer 4) 11) 10
    parse (.ofSource "-(20 + 3) *4") = .ok tree ∧
      tree.inorder = [⟨.minus, 0⟩, ⟨.integer 20, 2⟩, ⟨.plus, 5⟩, ⟨.integer 3, 7⟩, ⟨.times, 10⟩,
        ⟨.integer 4, 11⟩] ∧
      Text.digitRuns "-(20 + 3) *4".toList = 3 ∧ Text.Balanced "-(20 + 3) *4".toList := by
  intro tree
  have hparse : parse (.ofSource "-(20 + 3) *4") = .ok tree := by
    decide +kernel
  obtain ⟨-, -, -, hcount, hbalanced⟩ := parse_keeps_lexemes hparse
  exact ⟨hparse, rfl, hcount.symm, hbalanced⟩

end Abacus
