import Abacus.Proofs.Evaluation
import Abacus.Proofs.Grammar.Listing
import Abacus.Proofs.Interpretation
import Abacus.Proofs.Parts
import Abacus.Proofs.Relocation

/-!
# Expressions between parentheses

A text that is put between parentheses, alone or inside a longer text, keeps the tree
and the value it has by itself.

* `Source.enclosed`, `Source.Expresses.exists_group` — a text between parentheses; wherever
  it stands, it is a factor.
* `Source.Expresses.exists_enclosed` and the lemmas beside it — such a text alone, with a
  sign in front, and on both sides of an operator is an expression.
* `Source.Expresses.interpret_enclosed` and the lemmas beside it — what their values are.
* `interpret_embedding` — the same for texts within limits of their own.
-/

namespace Abacus

/-! ## Phrases -/

/-- A phrase that stands elsewhere is a phrase. -/
theorem Derives.relocate {level : Level} {lexemes : List Lexeme} {tree : Expr} {nest : Nat}
    (h : Derives level lexemes tree nest) (f : Nat → Nat) :
    Derives level (lexemes.map (Lexeme.relocate f)) (tree.relocate f) nest := by
  induction h with
  | integer value position => exact .integer value (f position)
  | sign hop _ ih => exact .sign hop ih
  | group _ ih =>
    rw [List.map_cons, List.map_append]
    exact .group ih
  | single hover _ ih => exact .single hover ih
  | operator hover _ hop _ ihl ihr =>
    rw [List.map_append, List.map_cons]
    exact .operator hover ihl hop ihr

/-- Two factors with an operator between them are an expression. -/
theorem Derives.join {lefts rights : List Lexeme} {left right : Expr} {m n : Nat} {op : Token}
    (hleft : Derives .factor lefts left m) (hop : op.isOperator)
    (hright : Derives .factor rights right n) (position : Nat) :
    Derives .expression (lefts ++ ⟨op, position⟩ :: rights) (.binary op left right position)
      (max m n) := by
  rcases Bool.or_eq_true _ _ ▸ hop with hadd | hmultiplicative
  · exact .operator .expression hleft.expression_of_factor hadd (.single .term hright)
  · exact .single .expression (.operator .term (.single .term hleft) hmultiplicative hright)

/-- An operator is written as one character. -/
theorem Token.exists_mark {op : Token} (hop : op.isOperator) :
    ∃ c, op.literal.toList = [c] ∧ (c, op) ∈ Source.marks := by
  cases op with
  | plus | minus | times | divide => exact ⟨_, rfl, by decide⟩
  | _ => cases hop

/-! ## Texts between parentheses -/

namespace Source

open Text (byteLength)

/-- A text between parentheses. -/
def enclosed (source : String) : String := "(" ++ source ++ ")"

theorem toList_enclosed (source : String) :
    (enclosed source).toList = ['('] ++ source.toList ++ [')'] := by
  simp [enclosed]

theorem byteLength_enclosed (source : String) :
    byteLength (enclosed source).toList = source.utf8ByteSize + 2 := by
  rw [toList_enclosed, Text.byteLength_append, Text.byteLength_append, Text.byteLength_toList,
    Nat.add_comm (byteLength ['('])]
  rfl

/-- No integer goes across a closing parenthesis. -/
theorem cut_enclosed_left (source : String) (cs : List Char) :
    Cut (enclosed source).toList cs := by
  rw [toList_enclosed]
  exact .of_last Bool.false_ne_true

/-- No integer goes across an opening parenthesis. -/
theorem cut_enclosed_right (source : String) (cs : List Char) :
    Cut cs (enclosed source).toList := by
  rw [toList_enclosed]
  exact .of_first Bool.false_ne_true

/-! ## Expressions between parentheses -/

/-- A text within limits of its own: an expression whose factors are enclosed in at most
`nest` signs and parentheses, with a tree of at most the given depth. -/
def Within (nest depth : Nat) (source : String) : Prop :=
  ∃ lexemes tree n, Expresses source lexemes tree n ∧ n ≤ nest ∧ tree.depth ≤ depth

namespace Expresses

variable {source first second : String} {lexemes firstLexemes secondLexemes : List Lexeme}
  {tree left right : Expr} {nest m n : Nat}

theorem reads (h : Expresses source lexemes tree nest) : Reads 0 source.toList lexemes := by
  rw [Reads, Nat.zero_add, Text.byteLength_toList]
  exact h.scan_eq

theorem of_reads (hreads : Reads 0 source.toList lexemes)
    (hderives : Derives .expression lexemes tree nest) : Expresses source lexemes tree nest := by
  rw [Reads, Nat.zero_add, Text.byteLength_toList] at hreads
  exact ⟨hreads, hderives⟩

/-- Wherever an expression between parentheses stands, it is a factor with the tree of the
expression. -/
theorem exists_group (h : Expresses source lexemes tree nest) (offset : Nat) :
    ∃ group, Reads offset (enclosed source).toList group ∧
      Derives .factor group (tree.relocate (offset + 1 + ·)) (nest + 1) := by
  have hopen : Reads offset ['('] [⟨.lparen, offset⟩] := .mark (by decide)
  have hinner := h.reads.shift (offset + 1)
  have hfront := hopen.append hinner (@Cut.of_last '(' [] _ Bool.false_ne_true)
  have hclose : Reads (offset + byteLength (['('] ++ source.toList)) [')'] [⟨.rparen, _⟩] :=
    .mark (by decide)
  have hgroup := hfront.append hclose (.of_first Bool.false_ne_true)
  rw [← toList_enclosed] at hgroup
  exact ⟨_, hgroup, .group (h.derives.relocate _)⟩

/-- An expression between parentheses is an expression. -/
theorem exists_enclosed (h : Expresses source lexemes tree nest) :
    ∃ group f, Expresses (enclosed source) group (tree.relocate f) (nest + 1) := by
  obtain ⟨group, hreads, hderives⟩ := h.exists_group 0
  exact ⟨group, _, .of_reads hreads hderives.expression_of_factor⟩

/-- An expression between parentheses with a sign in front is an expression. -/
theorem exists_negated (h : Expresses source lexemes tree nest) :
    ∃ phrase f, Expresses ("-" ++ enclosed source) phrase (.unary .minus (tree.relocate f) 0)
      (nest + 1 + 1) := by
  obtain ⟨group, hreads, hderives⟩ := h.exists_group 1
  have hsign : Reads 0 ['-'] [⟨.minus, 0⟩] := .mark (by decide)
  have hall := hsign.append hreads (cut_enclosed_right source _)
  have hminus : Token.minus.isAdditive := rfl
  refine ⟨_, _, .of_reads ?_ (hderives.sign hminus).expression_of_factor⟩
  rwa [String.toList_append]

/-- Two expressions between parentheses with an operator between them are an expression. -/
theorem exists_joined (hleft : Expresses first firstLexemes left m)
    (hright : Expresses second secondLexemes right n) {op : Token} (hop : op.isOperator) :
    ∃ phrase f g, Expresses
      (enclosed first ++ " " ++ op.literal ++ " " ++ enclosed second) phrase
      (.binary op (left.relocate f) (right.relocate g) (first.utf8ByteSize + 3))
      (max (m + 1) (n + 1)) := by
  obtain ⟨c, hliteral, hmark⟩ := op.exists_mark hop
  obtain ⟨firstGroup, hfirst, hfirstDerives⟩ := hleft.exists_group 0
  -- The parts of the text, from left to right.
  have hspace {offset : Nat} : Reads offset [' '] [] := .blanks (by simp [separators])
  have hfront := hfirst.append hspace (cut_enclosed_left _ _)
  have hop' := hfront.append (.mark hmark) (.of_last Bool.false_ne_true)
  have hmiddle := hop'.append hspace (.of_first Bool.false_ne_true)
  obtain ⟨secondGroup, hsecond, hsecondDerives⟩ := hright.exists_group
    (0 + byteLength ((enclosed first).toList ++ [' '] ++ [c] ++ [' ']))
  have hall := hmiddle.append hsecond (cut_enclosed_right _ _)
  have hposition : 0 + byteLength ((enclosed first).toList ++ [' ']) =
      first.utf8ByteSize + 3 := by
    rw [Text.byteLength_append, byteLength_enclosed, Nat.zero_add]
    rfl
  have htext : (enclosed first ++ " " ++ op.literal ++ " " ++ enclosed second).toList =
      (enclosed first).toList ++ [' '] ++ [c] ++ [' '] ++ (enclosed second).toList := by
    simp only [String.toList_append, hliteral]
    rfl
  rw [← htext, hposition] at hall
  simp only [List.append_nil, List.append_assoc, List.singleton_append] at hall
  exact ⟨_, _, _, .of_reads hall (hfirstDerives.join hop hsecondDerives _)⟩

end Expresses

end Source

/-! ## Values -/

/-- Wherever it stands, the tree has the value. -/
structure Expr.HasValue (tree : Expr) (x : Int64) : Prop where
  walk : ∀ f, (tree.relocate f).walk.outcome = .ok (.ofResult x)
  evaluate : ∀ f, (tree.relocate f).evaluate = .ok x

theorem Expr.HasValue.of_evaluate {tree : Expr} {x : Int64} (h : tree.evaluate = .ok x) :
    tree.HasValue x := by
  constructor
  · intro f
    rw [walk_relocate, walk_of_evaluate h]
    rfl
  · intro f
    rw [evaluate_relocate, h]
    rfl

namespace Source

variable {source first second : String} {lexemes firstLexemes secondLexemes : List Lexeme}
  {tree left right : Expr} {nest depth m n : Nat} {x y : Int64}

namespace Expresses

theorem hasValue (h : Expresses source lexemes tree nest) (hnest : nest ≤ maxNesting)
    (hdepth : tree.depth ≤ maxDepth) (hx : interpret source = .ok x) : tree.HasValue x := by
  apply Expr.HasValue.of_evaluate
  have hvalue := h.interpret_source hnest hdepth
  rw [hx] at hvalue
  rcases heval : tree.evaluate with error | value
  · rw [heval] at hvalue
    cases hvalue
  · rw [heval] at hvalue
    exact congrArg Except.ok (Except.ok.inj hvalue).symm

/-- Between parentheses an expression has the value it has by itself. -/
theorem interpret_enclosed (h : Expresses source lexemes tree nest) (hx : tree.HasValue x)
    (hnest : nest + 1 ≤ maxNesting) (hdepth : tree.depth ≤ maxDepth) :
    interpret (enclosed source) = .ok x := by
  obtain ⟨group, f, henclosed⟩ := h.exists_enclosed
  rw [henclosed.interpret_source hnest (by rwa [Expr.depth_relocate]), hx.evaluate]
  rfl

/-- A sign in front of the parentheses works on the value of the expression between them. -/
theorem interpret_negated (h : Expresses source lexemes tree nest) (hx : tree.HasValue x)
    (hnest : nest + 1 + 1 ≤ maxNesting) (hdepth : 1 + tree.depth ≤ maxDepth) :
    interpret ("-" ++ enclosed source) =
      (evalUnary .minus (.ofResult x) 0).mapError Error.eval := by
  obtain ⟨phrase, f, hnegated⟩ := h.exists_negated
  have hlow : (Expr.unary .minus (tree.relocate f) 0).depth ≤ maxDepth := by
    rwa [Expr.depth, Expr.depth_relocate]
  rw [hnegated.interpret_source hnest hlow, Expr.evaluate_unary, hx.walk]
  rfl

/-- An operator works on the values of the expressions between the parentheses on its two sides. -/
theorem interpret_joined (hleft : Expresses first firstLexemes left m)
    (hright : Expresses second secondLexemes right n) (hx : left.HasValue x)
    (hy : right.HasValue y) (hnest : max (m + 1) (n + 1) ≤ maxNesting)
    (hdepth : 1 + max left.depth right.depth ≤ maxDepth) {op : Token} (hop : op.isOperator) :
    interpret (enclosed first ++ " " ++ op.literal ++ " " ++ enclosed second) =
      (evalBinary op (.ofResult x) (.ofResult y) (first.utf8ByteSize + 3)).mapError
        Error.eval := by
  obtain ⟨phrase, f, g, hjoined⟩ := hleft.exists_joined hright hop
  have hlow : (Expr.binary op (left.relocate f) (right.relocate g)
      (first.utf8ByteSize + 3)).depth ≤ maxDepth := by
    rwa [Expr.depth, Expr.depth_relocate, Expr.depth_relocate]
  rw [hjoined.interpret_source hnest hlow, Expr.evaluate_binary, hx.walk, hy.walk]
  rfl

end Expresses

theorem Within.exists_hasValue (h : Within nest depth source) (hnest : nest ≤ maxNesting)
    (hdepth : depth ≤ maxDepth) (hx : interpret source = .ok x) :
    ∃ lexemes tree n, Expresses source lexemes tree n ∧ n ≤ nest ∧ tree.depth ≤ depth ∧
      tree.HasValue x := by
  obtain ⟨lexemes, tree, n, hexpresses, hn, htree⟩ := h
  exact ⟨lexemes, tree, n, hexpresses, hn, htree,
    hexpresses.hasValue (Nat.le_trans hn hnest) (Nat.le_trans htree hdepth) hx⟩

end Source

/-- A text in which expressions `first` and `second` stand between parentheses has the value
that the operator in front of them or between them gives for their own values, or its
error at the place of the operator; and without an operator it has their value. -/
theorem interpret_embedding {first second : String} {x y : Int64}
    (hx : interpret first = .ok x) (hy : interpret second = .ok y)
    (hfirst : Source.Within 255 1023 first) (hsecond : Source.Within 255 1023 second) :
    (∀ op : Token, op.isOperator →
      interpret (Source.enclosed first ++ " " ++ op.literal ++ " " ++ Source.enclosed second) =
        (evalBinary op (.ofResult x) (.ofResult y) (first.utf8ByteSize + 3)).mapError
          Error.eval) ∧
    interpret (Source.enclosed first) = .ok x ∧
    (Source.Within 254 1023 first →
      interpret ("-" ++ Source.enclosed first) =
        (evalUnary .minus (.ofResult x) 0).mapError Error.eval) := by
  obtain ⟨_, left, m, hleft, hm, hleftDepth, hleftValue⟩ :=
    hfirst.exists_hasValue (by decide) (by decide) hx
  obtain ⟨_, right, n, hright, hn, hrightDepth, hrightValue⟩ :=
    hsecond.exists_hasValue (by decide) (by decide) hy
  refine ⟨?_, ?_, ?_⟩
  · intro op hop
    apply hleft.interpret_joined hright hleftValue hrightValue _ _ hop
    · show max (m + 1) (n + 1) ≤ 256
      omega
    · show 1 + max left.depth right.depth ≤ 1024
      omega
  · apply hleft.interpret_enclosed hleftValue
    · show m + 1 ≤ 256
      omega
    · show left.depth ≤ 1024
      omega
  · intro hlow
    obtain ⟨_, left, m, hleft, hm, hleftDepth, hleftValue⟩ :=
      hlow.exists_hasValue (by decide) (by decide) hx
    apply hleft.interpret_negated hleftValue
    · show m + 1 + 1 ≤ 256
      omega
    · show 1 + left.depth ≤ 1024
      omega

/-- A sum, and a difference as its divisor. -/
theorem interpret_embedding_sum_difference :
    interpret "1+2*3" = .ok 7 ∧ interpret "4 - 6" = .ok (-2) ∧
      Source.Within 254 1023 "1+2*3" ∧ Source.Within 255 1023 "4 - 6" ∧
      interpret "(1+2*3) / (4 - 6)" = .ok (-4) ∧ interpret "(1+2*3)" = .ok 7 ∧
      interpret "-(1+2*3)" = .ok (-7) := by
  have hx : interpret "1+2*3" = .ok 7 := by decide +kernel
  have hy : interpret "4 - 6" = .ok (-2) := by decide +kernel
  have hsum : Source.Expresses "1+2*3" ([⟨.integer 1, 0⟩] ++ ⟨.plus, 1⟩ ::
      ([⟨.integer 2, 2⟩] ++ ⟨.times, 3⟩ :: [⟨.integer 3, 4⟩])) _ 0 :=
    .of_scan (by decide +kernel) (by decide +kernel)
      (.operator .expression (Derives.integer 1 0).expression_of_factor rfl
        (.operator .term (.single .term (.integer 2 2)) rfl (.integer 3 4)))
  have hdifference : Source.Expresses "4 - 6" ([⟨.integer 4, 0⟩] ++ ⟨.minus, 2⟩ ::
      [⟨.integer 6, 4⟩]) _ 0 :=
    .of_scan (by decide +kernel) (by decide +kernel)
      (.operator .expression (Derives.integer 4 0).expression_of_factor rfl
        (.single .term (.integer 6 4)))
  have hfirst : Source.Within 254 1023 "1+2*3" := ⟨_, _, 0, hsum, by decide, by decide⟩
  have hwider : Source.Within 255 1023 "1+2*3" := ⟨_, _, 0, hsum, by decide, by decide⟩
  have hsecond : Source.Within 255 1023 "4 - 6" := ⟨_, _, 0, hdifference, by decide, by decide⟩
  obtain ⟨hjoined, henclosed, hnegated⟩ := interpret_embedding hx hy hwider hsecond
  exact ⟨hx, hy, hfirst, hsecond, hjoined .divide rfl, henclosed, hnegated hfirst⟩

end Abacus
