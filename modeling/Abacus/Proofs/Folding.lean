import Abacus.Proofs.Evaluation

/-!
# Folding constants

A subtree that has a value may be replaced by the decimal form of that value: wherever it
stands, the whole tree keeps its value or its error.

* `Expr.Context`, `Expr.Context.fill` — a tree around the place of one subtree.
* `Expr.mem_postorder_iff` — every subtree stands in such a place.
* `Expr.Context.outcome_walk_fill`, `Expr.Context.evaluate_fill` — what stands there counts
  by the end of its own walk only.
* `Expr.decimal` — the tree of the decimal form of a word, `Expr.walk_decimal` its value.
* `evaluate_fill_decimal` — the replacement.

The least word needs care: its digits alone have no value, and get one by the sign.
-/

namespace Abacus

namespace Expr

/-! ## Places in a tree -/

/-- A tree with a hole in the place of one subtree. -/
inductive Context where
  | hole
  | unary (op : Token) (operand : Context) (position : Nat)
  | inLeft (op : Token) (operand : Context) (right : Expr) (position : Nat)
  | inRight (op : Token) (left : Expr) (operand : Context) (position : Nat)
deriving DecidableEq, Repr

/-- The tree with `subtree` in the hole. -/
def Context.fill (context : Context) (subtree : Expr) : Expr :=
  match context with
  | hole => subtree
  | unary op operand position => .unary op (operand.fill subtree) position
  | inLeft op operand right position => .binary op (operand.fill subtree) right position
  | inRight op left operand position => .binary op left (operand.fill subtree) position

/-- What fills a hole is among the nodes of the tree. -/
theorem Context.mem_postorder_fill (context : Context) (subtree : Expr) :
    subtree ∈ (context.fill subtree).postorder := by
  induction context with
  | hole => cases subtree <;> simp [fill, postorder]
  | unary op operand position ih => simp [fill, postorder, ih]
  | inLeft op operand right position ih => simp [fill, postorder, ih]
  | inRight op left operand position ih => simp [fill, postorder, ih]

/-- The nodes of a tree are its subtrees, each of them in a hole of the rest. -/
theorem mem_postorder_iff {subtree tree : Expr} :
    subtree ∈ tree.postorder ↔ ∃ context : Context, context.fill subtree = tree := by
  constructor
  · intro h
    induction tree with
    | literal token position =>
      rw [postorder, List.mem_singleton] at h
      exact ⟨.hole, h⟩
    | unary op operand position ih =>
      rw [postorder, List.mem_append, List.mem_singleton] at h
      rcases h with hoperand | hroot
      · obtain ⟨context, rfl⟩ := ih hoperand
        exact ⟨.unary op context position, rfl⟩
      · exact ⟨.hole, hroot⟩
    | binary op left right position ihl ihr =>
      rw [postorder, List.mem_append, List.mem_append, List.mem_singleton] at h
      rcases h with (hleft | hright) | hroot
      · obtain ⟨context, rfl⟩ := ihl hleft
        exact ⟨.inLeft op context right position, rfl⟩
      · obtain ⟨context, rfl⟩ := ihr hright
        exact ⟨.inRight op left context position, rfl⟩
      · exact ⟨.hole, hroot⟩
  · rintro ⟨context, rfl⟩
    exact context.mem_postorder_fill subtree

/-! ## The walk around a place -/

namespace Context

variable {first second : Expr}

/-- Subtrees whose walks end alike may stand for each other in every walk. -/
theorem outcome_walk_fill (context : Context)
    (hwalk : first.walk.outcome = second.walk.outcome) :
    (context.fill first).walk.outcome = (context.fill second).walk.outcome := by
  induction context with
  | hole => exact hwalk
  | unary op operand position ih =>
    simp only [fill, outcome_walk_unary]
    rw [ih]
  | inLeft op operand right position ih =>
    simp only [fill, outcome_walk_binary]
    rw [ih]
  | inRight op left operand position ih =>
    simp only [fill, outcome_walk_binary]
    rw [ih]

/-- Subtrees whose walks end alike can take the place of each other, wherever they stand. By
themselves they must have one value, too: a root may be too large. -/
theorem evaluate_fill (context : Context) (hwalk : first.walk.outcome = second.walk.outcome)
    (hroot : first.evaluate = second.evaluate) :
    (context.fill first).evaluate = (context.fill second).evaluate := by
  cases context with
  | hole => exact hroot
  | unary op operand position =>
    simp only [fill, evaluate_unary]
    rw [operand.outcome_walk_fill hwalk]
  | inLeft op operand right position =>
    simp only [fill, evaluate_binary]
    rw [operand.outcome_walk_fill hwalk]
  | inRight op left operand position =>
    simp only [fill, evaluate_binary]
    rw [operand.outcome_walk_fill hwalk]

end Context

/-! ## Decimal forms -/

/-- The tree of the decimal form of a word: its digits at byte `place`, and if it is negative
a sign in front of them at byte `sign`. -/
def decimal (word : Int64) (sign place : Nat) : Expr :=
  let digits := literal (.integer (.ofNat word.toInt.natAbs)) place
  if word.toInt < 0 then unary .minus digits sign else digits

variable {word : Int64}

/-- The digits of every word, the least one included, are a literal. -/
theorem toInt_ofLiteral_natAbs (word : Int64) :
    (Wide.ofLiteral (.ofNat word.toInt.natAbs)).toInt = word.toInt.natAbs := by
  have hfits := fits_iff.mp (fits_toInt word)
  have hlt : word.toInt.natAbs < UInt64.size := by
    rw [UInt64.size]
    omega
  rw [Wide.toInt_ofLiteral, UInt64.toNat_ofNat_of_lt' hlt]

/-- The walk gives a decimal form the value of its word. -/
theorem walk_decimal (word : Int64) (sign place : Nat) :
    (decimal word sign place).walk.outcome = .ok (.ofResult word) := by
  have hdigits := toInt_ofLiteral_natAbs word
  unfold decimal
  by_cases hneg : word.toInt < 0
  · -- The sign is applied before the value is narrowed.
    have hlow : (BitVec.intMin 128).toInt < (Wide.ofLiteral (.ofNat word.toInt.natAbs)).toInt := by
      rw [hdigits]
      exact Int.lt_of_lt_of_le (by decide) (Int.natCast_nonneg _)
    have hvalue : -(word.toInt.natAbs : Int) = (Wide.ofResult word).toInt := by
      rw [Wide.toInt_ofResult]
      omega
    rw [if_pos hneg, outcome_walk_unary, walk, Walk.outcome_visit]
    show (evalUnary .minus _ sign >>= _) = _
    rw [evalUnary_minus hlow, hdigits, hvalue, exact_toInt_ofResult]
    rfl
  · have hvalue : Wide.ofLiteral (.ofNat word.toInt.natAbs) = Wide.ofResult word := by
      apply BitVec.eq_of_toInt_eq
      rw [hdigits, Wide.toInt_ofResult]
      omega
    rw [if_neg hneg, walk, Walk.outcome_visit, literalValue, hvalue]

theorem evaluate_decimal (word : Int64) (sign place : Nat) :
    (decimal word sign place).evaluate = .ok word := by
  rw [evaluate_eq, walk_decimal]
  exact exact_toInt_ofResult word _

end Expr

/-- A tree keeps its value, and its error with all details, if a subtree anywhere in it that
has a value is replaced by the decimal form of that value. -/
theorem evaluate_fill_decimal {tree subtree : Expr} {word : Int64} (context : Expr.Context)
    (htree : context.fill subtree = tree) (hvalue : subtree.evaluate = .ok word)
    (sign place : Nat) :
    (context.fill (Expr.decimal word sign place)).evaluate = tree.evaluate := by
  rw [← htree]
  apply context.evaluate_fill
  · rw [Expr.walk_decimal, Expr.walk_of_evaluate hvalue]
  · rw [Expr.evaluate_decimal, hvalue]

/-- The dividend is the least word, and the error behind it stays where it is. -/
theorem evaluate_fill_decimal_least :
    let number (value : UInt64) (position : Nat) := Expr.literal (.integer value) position
    let dividend := Expr.binary .minus (.unary .minus (number 9223372036854775807 2) 1)
      (number 1 22) 21
    let context := Expr.Context.inLeft .divide .hole (.unary .plus (number 0 27) 26) 25
    context.fill dividend = .binary .divide dividend (.unary .plus (number 0 27) 26) 25 ∧
      dividend.evaluate = .ok Int64.minValue ∧
      Expr.decimal Int64.minValue 1 2 = .unary .minus (number 9223372036854775808 2) 1 ∧
      (context.fill (.unary .minus (number 9223372036854775808 2) 1)).evaluate =
        .error (.divisionByZero 25) := by
  intro number dividend context
  have hvalue : dividend.evaluate = .ok Int64.minValue := by decide
  have hdecimal : Expr.decimal Int64.minValue 1 2 =
      .unary .minus (number 9223372036854775808 2) 1 := by decide
  refine ⟨rfl, hvalue, hdecimal, ?_⟩
  rw [← hdecimal, evaluate_fill_decimal context rfl hvalue 1 2]
  decide

end Abacus
