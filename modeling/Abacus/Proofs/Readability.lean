import Abacus.Proofs.Evaluation
import Abacus.Proofs.Printing
import Abacus.Proofs.Session

/-!
# Trees shown as text

The text in which trees are shown, operator first, says which tree it is.

* `Expr.Alike` — two trees are the same, except perhaps for their positions.
* `Token.literal_append_inj` — which token a text starts with, and where it ends.
* `Expr.Ended` — after a tree that is one literal no more digits come.
* `Expr.render_append_inj` — which tree a text starts with, and where it ends.
* `exists_report_out` — what a report with trees shows.
* `render_eq_iff` — trees are shown alike if they are alike, and only then.

The texts of `-1` and `-1` minus something begin alike, so that the number of operands is
known only behind the first of them: there a tree of one literal must have ended.
-/

namespace Abacus

/-! ## Tokens -/

namespace Token

open Source (Spells)

variable {token other : Token} {after after' : List Char}

/-- A text starts with one token at most, if the digits of an integer are all that come. -/
theorem literal_append_inj (heof : token ≠ .eof) (heof' : other ≠ .eof)
    (hafter : ∀ c ∈ after.head?, ¬ c.isDigit) (hafter' : ∀ c ∈ after'.head?, ¬ c.isDigit)
    (htext : token.literal.toList ++ after = other.literal.toList ++ after') :
    token = other ∧ after = after' := by
  have hspells : Spells [] after token.literal.toList token :=
    Source.spells_literal heof (by simp) hafter
  have hspells' : Spells [] after' other.literal.toList other :=
    Source.spells_literal heof' (by simp) hafter'
  exact (hspells.unique hspells' htext).2

/-- No integer starts with a parenthesis. -/
theorem literal_append_ne (hkind : token.kind = .integer) :
    token.literal.toList ++ after ≠ '(' :: after' := by
  intro htext
  cases token with
  | integer value =>
    rw [toList_literal_integer] at htext
    obtain ⟨c, digits, hdigits⟩ := List.exists_cons_of_ne_nil
      (Nat.toDigits_ne_nil : Nat.toDigits 10 value.toNat ≠ [])
    have hc : c.isDigit :=
      Nat.isDigit_of_mem_toDigits (by decide) (by decide) (hdigits ▸ List.mem_cons_self ..)
    rw [hdigits] at htext
    obtain ⟨rfl, -⟩ := List.cons.inj htext
    cases hc
  | _ => cases hkind

theorem ne_eof_of_integer (hkind : token.kind = .integer) : token ≠ .eof := by
  rintro rfl
  cases hkind

theorem ne_eof_of_operator (hop : token.isAdditive ∨ token.isMultiplicative) : token ≠ .eof := by
  rintro rfl
  rcases hop with hop | hop <;> cases hop

end Token

/-! ## Trees -/

namespace Expr

/-- The trees are the same, except perhaps for their positions. -/
def Alike (tree other : Expr) : Prop :=
  tree.relocate (fun _ => 0) = other.relocate fun _ => 0

/-- What stands after the tree does not go on with the digits of its only literal. -/
def Ended (tree : Expr) (after : List Char) : Prop :=
  tree.IsLiteral → ∀ c ∈ after.head?, ¬ c.isDigit

variable {tree other operand left right : Expr} {op : Token} {position : Nat} {c : Char}
  {after after' : List Char}

/-- Positions are not shown. -/
theorem render_relocate (f : Nat → Nat) (tree : Expr) : (tree.relocate f).render = tree.render := by
  induction tree with
  | literal token position => rfl
  | unary op operand position ih => simp only [relocate, render, ih]
  | binary op left right position ihl ihr => simp only [relocate, render, ihl, ihr]

theorem Alike.render_eq (h : tree.Alike other) : tree.render = other.render := by
  rw [← render_relocate (fun _ => 0) tree, h, render_relocate]

theorem Ended.of_not_isDigit (h : ¬ c.isDigit) : tree.Ended (c :: after) := by
  rintro - d hd
  obtain rfl : c = d := Option.some.inj hd
  exact h

theorem Ended.space : tree.Ended (' ' :: after) := .of_not_isDigit (by decide)

theorem Ended.closing : tree.Ended (')' :: after) := .of_not_isDigit (by decide)

theorem toList_render_unary :
    (unary op operand position).render.toList ++ after =
      '(' :: (op.literal.toList ++ ' ' :: (operand.render.toList ++ ')' :: after)) := by
  simp [render]

theorem toList_render_binary :
    (binary op left right position).render.toList ++ after =
      '(' :: (op.literal.toList ++
        ' ' :: (left.render.toList ++ ' ' :: (right.render.toList ++ ')' :: after))) := by
  simp [render]

/-- After a parenthesis a text starts with one operator at most, and one rest behind it. -/
theorem operator_append_inj {op other : Token} (heof : op ≠ .eof) (heof' : other ≠ .eof)
    (htext : '(' :: (op.literal.toList ++ ' ' :: after) =
      '(' :: (other.literal.toList ++ ' ' :: after')) : op = other ∧ after = after' := by
  have hspace (after : List Char) : ∀ c ∈ (' ' :: after).head?, ¬ c.isDigit := by
    simp
  obtain ⟨rfl, hafter⟩ := Token.literal_append_inj heof heof' (hspace _) (hspace _)
    (List.cons.inj htext).2
  exact ⟨rfl, (List.cons.inj hafter).2⟩

/-- A sign and an operator between two operands are shown alike up to the end of the first
operand, and there one text is closed and the other is not. -/
theorem render_unary_ne_binary {sign op : Token} {place : Nat} (hsign : sign.isAdditive)
    (hop : op.isAdditive ∨ op.isMultiplicative)
    (hinj : ∀ {after after'}, operand.Ended after → left.Ended after' →
      operand.render.toList ++ after = left.render.toList ++ after' →
      operand.Alike left ∧ after = after') :
    (unary sign operand position).render.toList ++ after ≠
      (binary op left right place).render.toList ++ after' := by
  intro htext
  rw [toList_render_unary, toList_render_binary] at htext
  obtain ⟨-, hoperands⟩ := operator_append_inj (Token.ne_eof_of_operator (.inl hsign))
    (Token.ne_eof_of_operator hop) htext
  obtain ⟨-, hend⟩ := hinj .closing .space hoperands
  exact absurd (List.cons.inj hend).1 (by decide)

/-- A text starts with one tree at most. -/
theorem render_append_inj (hwf : tree.WellFormed) (hother : other.WellFormed)
    (hafter : tree.Ended after) (hafter' : other.Ended after')
    (htext : tree.render.toList ++ after = other.render.toList ++ after') :
    tree.Alike other ∧ after = after' := by
  -- On the first tree, with what stands after both left open.
  induction tree generalizing other after after' with
  | literal token position =>
    cases other with
    | literal token' position' =>
      obtain ⟨rfl, hsame⟩ := Token.literal_append_inj (Token.ne_eof_of_integer hwf)
        (Token.ne_eof_of_integer hother) (hafter trivial) (hafter' trivial) htext
      exact ⟨rfl, hsame⟩
    | unary =>
      rw [toList_render_unary] at htext
      exact absurd htext (Token.literal_append_ne hwf)
    | binary =>
      rw [toList_render_binary] at htext
      exact absurd htext (Token.literal_append_ne hwf)
  | unary op operand position ih =>
    obtain ⟨hop, hwf⟩ := hwf
    cases other with
    | literal =>
      rw [toList_render_unary] at htext
      exact absurd htext.symm (Token.literal_append_ne hother)
    | unary op' operand' position' =>
      obtain ⟨hop', hother⟩ := hother
      rw [toList_render_unary, toList_render_unary] at htext
      obtain ⟨rfl, hoperand⟩ := operator_append_inj (Token.ne_eof_of_operator (.inl hop))
        (Token.ne_eof_of_operator (.inl hop')) htext
      obtain ⟨halike, hend⟩ := ih hwf hother .closing .closing hoperand
      refine ⟨?_, (List.cons.inj hend).2⟩
      rw [Alike, relocate, relocate, halike]
    | binary op' left' right' position' =>
      obtain ⟨hop', hleft', -⟩ := hother
      exact absurd htext (render_unary_ne_binary hop hop' fun h h' => ih hwf hleft' h h')
  | binary op left right position ihl ihr =>
    obtain ⟨hop, hleft, hright⟩ := hwf
    cases other with
    | literal =>
      rw [toList_render_binary] at htext
      exact absurd htext.symm (Token.literal_append_ne hother)
    | unary op' operand' position' =>
      obtain ⟨hop', hoperand'⟩ := hother
      refine absurd htext.symm (render_unary_ne_binary hop' hop ?_)
      intro back back' h h' hback
      obtain ⟨halike, hend⟩ := ihl hleft hoperand' h' h hback.symm
      exact ⟨halike.symm, hend.symm⟩
    | binary op' left' right' position' =>
      obtain ⟨hop', hleft', hright'⟩ := hother
      rw [toList_render_binary, toList_render_binary] at htext
      obtain ⟨rfl, hoperands⟩ := operator_append_inj (Token.ne_eof_of_operator hop)
        (Token.ne_eof_of_operator hop') htext
      obtain ⟨halikeLeft, hmiddle⟩ := ihl hleft hleft' .space .space hoperands
      obtain ⟨halikeRight, hend⟩ :=
        ihr hright hright' .closing .closing (List.cons.inj hmiddle).2
      refine ⟨?_, (List.cons.inj hend).2⟩
      rw [Alike, relocate, relocate, halikeLeft, halikeRight]

/-- A tree whose text goes on as that of another one is a literal, and so is the other. -/
theorem isLiteral_of_prefix (hwf : tree.WellFormed) (hother : other.WellFormed)
    (h : tree.render.toList <+: other.render.toList) (hne : tree.render ≠ other.render) :
    tree.IsLiteral ∧ other.IsLiteral := by
  obtain ⟨back, hback⟩ := h
  have htext : tree.render.toList ++ back = other.render.toList ++ [] := by
    rw [hback, List.append_nil]
  by_cases htree : tree.IsLiteral
  · refine ⟨htree, ?_⟩
    cases tree with
    | literal token position =>
      cases other with
      | literal => trivial
      | unary =>
        rw [toList_render_unary] at htext
        exact absurd htext (Token.literal_append_ne hwf)
      | binary =>
        rw [toList_render_binary] at htext
        exact absurd htext (Token.literal_append_ne hwf)
    | _ => cases htree
  · -- The text of a node with operands is closed, so that nothing can come behind it.
    obtain ⟨halike, -⟩ := render_append_inj hwf hother (fun h => absurd h htree)
      (fun _ c hc => by cases hc) htext
    exact absurd halike.render_eq hne

end Expr

/-! ## Texts that show trees -/

/-- With trees and without tokens, a report starts with a line that shows the tree. -/
theorem exists_report_out {settings : Settings} {source : String} {tree : Expr}
    (htokens : ¬ settings.tokens) (htree : settings.tree)
    (hparse : parse (.ofSource source) = .ok tree) :
    ∃ back, (report settings source).2.out.toList = tree.render.toList ++ '\n' :: back := by
  have hresult : (parseRecorded 0 (.ofSource source)).result.1 = .ok tree := by
    rw [result_parseRecorded]
    exact hparse
  have hlog (events : List Event) : (settings.log events).out = "" := rfl
  rw [report, attempt]
  simp only [hresult]
  rcases (evaluateRecorded tree).result with error | value
  · exact ⟨[], by simp [htokens, htree, hlog]⟩
  · exact ⟨(toString value.toInt ++ "\n").toList, by simp [htokens, htree, hlog]⟩

/-- Trees of the kind that the parser builds have the same text just if they are the same up
to their positions, and if the text of one is only the beginning of the other's, both are
literals. So the tree can be told from the log and from the output that shows trees. -/
theorem render_eq_iff {tree other : Expr} (hwf : tree.WellFormed) (hother : other.WellFormed) :
    (tree.render = other.render ↔ tree.Alike other) ∧
      (tree.render.toList <+: other.render.toList → tree.render ≠ other.render →
        tree.IsLiteral ∧ other.IsLiteral) ∧
      ((Event.parsed tree).message = (Event.parsed other).message ↔ tree.Alike other) ∧
      ∀ (settings : Settings) (first second : String), ¬ settings.tokens → settings.tree →
        parse (.ofSource first) = .ok tree → parse (.ofSource second) = .ok other →
        (report settings first).2.out = (report settings second).2.out → tree.Alike other := by
  have hiff : tree.render = other.render ↔ tree.Alike other := by
    refine ⟨?_, Expr.Alike.render_eq⟩
    intro h
    have hnil (tree : Expr) : tree.Ended [] := fun _ c hc => by cases hc
    exact (Expr.render_append_inj hwf hother (hnil tree) (hnil other) (by rw [h])).1
  refine ⟨hiff, Expr.isLiteral_of_prefix hwf hother, ?_, ?_⟩
  · rw [← hiff, Event.message, Event.message, String.append_right_inj]
  · intro settings first second htokens htree hfirst hsecond hout
    obtain ⟨back, hback⟩ := exists_report_out htokens htree hfirst
    obtain ⟨back', hback'⟩ := exists_report_out htokens htree hsecond
    have htext : tree.render.toList ++ '\n' :: back = other.render.toList ++ '\n' :: back' := by
      rw [← hback, ← hback', hout]
    exact (Expr.render_append_inj hwf hother (.of_not_isDigit (by decide))
      (.of_not_isDigit (by decide)) htext).1

/-- Two texts that differ in their spaces, and two literals of which one goes on as the other
does not. -/
theorem render_eq_iff_difference :
    let settings : Settings := { Settings.default with tree := true }
    let number (value : UInt64) (position : Nat) := Expr.literal (.integer value) position
    let tree := Expr.binary .minus (number 1 0) (number 2 2) 1
    let other := Expr.binary .minus (number 1 1) (number 2 5) 3
    (tree.WellFormed ∧ other.WellFormed ∧ ¬ settings.tokens ∧ settings.tree ∧
        parse (.ofSource "1-2") = .ok tree ∧ parse (.ofSource " 1 - 2") = .ok other ∧
        (report settings "1-2").2.out = (report settings " 1 - 2").2.out ∧
        tree.Alike other ∧ tree.render = other.render) ∧
      (number 1 0).WellFormed ∧ (number 12 0).WellFormed ∧
        (number 1 0).render.toList <+: (number 12 0).render.toList ∧
        (number 1 0).render ≠ (number 12 0).render ∧
        (number 1 0).IsLiteral ∧ (number 12 0).IsLiteral := by
  intro settings number tree other
  have hnumber (value : UInt64) (position : Nat) : (number value position).WellFormed := rfl
  have hop : Token.minus.isAdditive ∨ Token.minus.isMultiplicative := .inl rfl
  have hwf : tree.WellFormed := ⟨hop, hnumber 1 0, hnumber 2 2⟩
  have hother : other.WellFormed := ⟨hop, hnumber 1 1, hnumber 2 5⟩
  have hfirst : parse (.ofSource "1-2") = .ok tree := by decide +kernel
  have hsecond : parse (.ofSource " 1 - 2") = .ok other := by decide +kernel
  have hout : (report settings "1-2").2.out = (report settings " 1 - 2").2.out := by
    decide +kernel
  have hprefix : (number 1 0).render.toList <+: (number 12 0).render.toList := ⟨['2'], by decide⟩
  have hne : (number 1 0).render ≠ (number 12 0).render := by decide
  obtain ⟨hiff, -, -, hreport⟩ := render_eq_iff hwf hother
  obtain ⟨-, hliterals, -⟩ := render_eq_iff (hnumber 1 0) (hnumber 12 0)
  have halike : tree.Alike other :=
    hreport settings "1-2" " 1 - 2" Bool.false_ne_true rfl hfirst hsecond hout
  exact ⟨⟨hwf, hother, Bool.false_ne_true, rfl, hfirst, hsecond, hout, halike, hiff.mpr halike⟩,
    hnumber 1 0, hnumber 12 0, hprefix, hne, hliterals hprefix hne⟩

end Abacus
