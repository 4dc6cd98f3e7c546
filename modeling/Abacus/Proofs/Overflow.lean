import Abacus.Proofs.Evaluation

/-!
# Operations without a check

The evaluator checks sums, differences, products and quotients of wide words. Three
operations have no check: the negation by a sign, the remainder of a division, and the
step from a quotient down to the one below. Here they get one.

* `Guarded` — an outcome, or nothing at all once an operation has overflowed.
* `floorDiv?`, `evalUnary?`, `evalBinary?`, `Expr.guarded` — the division, the operators
  and the walk with a check at every operation.
* `floorDiv?_eq` — a division passes its checks, whatever the two words are.
* `Expr.guarded_eq` — so does the walk of a tree, since the words in it are far from the
  least one (`Expr.bounds_of_walk`).
* `arithmetic_never_overflows` — both, and the ranges of all values.
-/

namespace Abacus

/-! ## Checks -/

namespace Wide

/-- The negative; the least word has none. -/
def neg? (value : Wide) : Option Wide :=
  if value = BitVec.intMin 128 then none else some (-value)

/-- The word one below; the least word has none. -/
def pred? (value : Wide) : Option Wide :=
  if value = BitVec.intMin 128 then none else some (value - 1)

/-- The remainder of a division rounded toward zero. There is none by zero, and none of the
least word by minus one, whose quotient is no word. -/
def rem? (left right : Wide) : Option Wide :=
  if right = 0 ∨ left = BitVec.intMin 128 ∧ right = -1 then none else some (left.srem right)

end Wide

/-- A computation with an outcome, or with none if an operation without a check of its own
has overflowed. -/
abbrev Guarded (α : Type) := ExceptT EvalError Option α

namespace Guarded

variable {α β : Type}

/-- A computation in which nothing can overflow. -/
def ofExcept (outcome : Except EvalError α) : Guarded α := ExceptT.mk (some outcome)

@[simp] theorem run_ofExcept (outcome : Except EvalError α) :
    (ofExcept outcome).run = some outcome := rfl

/-- A check that is passed lets the computation go on. -/
theorem lift_some_bind (a : α) (step : α → Guarded β) :
    ((liftM (some a) : Guarded α) >>= step) = step a := rfl

/-- Two steps one after the other, in which nothing overflows. -/
theorem ofExcept_bind {outcome : Except EvalError α} {next : α → Except EvalError β}
    {step : α → Guarded β} (h : ∀ a, outcome = .ok a → step a = ofExcept (next a)) :
    ofExcept outcome >>= step = ofExcept (outcome >>= next) := by
  cases outcome with
  | error error => rfl
  | ok a => exact h a rfl

end Guarded

/-- Division as in `floorDiv`, with a check at the remainder and at the quotient below. -/
def floorDiv? (left right : Wide) (position : Nat) : Guarded Int64 :=
  if right = 0 then
    throw (.divisionByZero position)
  else
    match left.quot? right with
    | none => throw (.overflow position)
    | some quotient => do
      let remainder ← left.rem? right
      if remainder ≠ 0 ∧ left.slt 0 ≠ right.slt 0 then
        let below ← quotient.pred?
        .ofExcept (narrow below position)
      else
        .ofExcept (narrow quotient position)

/-- Signs as in `evalUnary`, with a check at the negation. -/
def evalUnary? (op : Token) (value : Wide) (position : Nat) : Guarded Int64 :=
  match op with
  | .minus => do
    let negative ← value.neg?
    .ofExcept (narrow negative position)
  | op => .ofExcept (evalUnary op value position)

/-- Operators as in `evalBinary`, with a check inside the division. -/
def evalBinary? (op : Token) (left right : Wide) (position : Nat) : Guarded Int64 :=
  match op with
  | .divide => floorDiv? left right position
  | op => .ofExcept (evalBinary op left right position)

/-- The walk of a tree with a check at every operation. -/
def Expr.guarded : Expr → Guarded Wide
  | literal token position => .ofExcept (literalValue token position)
  | unary op operand position => do
    let value ← operand.guarded
    let result ← evalUnary? op value position
    return .ofResult result
  | binary op left right position => do
    let leftValue ← left.guarded
    let rightValue ← right.guarded
    let result ← evalBinary? op leftValue rightValue position
    return .ofResult result

/-! ## Division -/

section

variable {left right quotient : Wide}

theorem Wide.quot?_eq_some_iff :
    left.quot? right = some quotient ↔
      right ≠ 0 ∧ ¬ left.sdivOverflow right ∧ left.sdiv right = quotient := by
  simp [quot?, and_assoc]

/-- The remainder stands behind the quotient, which fails in the same two cases. -/
theorem Wide.rem?_of_quot? (h : left.quot? right = some quotient) :
    left.rem? right = some (left.srem right) := by
  obtain ⟨hright, hover, -⟩ := quot?_eq_some_iff.mp h
  apply if_neg
  rintro (hzero | ⟨rfl, rfl⟩)
  · exact hright hzero
  · exact hover (by decide)

/-- The step down is taken from a quotient with a remainder. -/
theorem Wide.pred?_of_quot? (h : left.quot? right = some quotient) (hrem : left.srem right ≠ 0) :
    quotient.pred? = some (quotient - 1) := by
  obtain ⟨hright, hover, rfl⟩ := quot?_eq_some_iff.mp h
  apply if_neg
  intro hleast
  apply not_ssubOverflow_one (mt Wide.toInt_eq_zero_iff.mp hright) hover hrem
  rw [hleast]
  decide

end

/-- A division passes all checks. -/
theorem floorDiv?_eq (left right : Wide) (position : Nat) :
    floorDiv? left right position = .ofExcept (floorDiv left right position) := by
  unfold floorDiv? floorDiv
  by_cases hright : right = 0
  · rw [if_pos hright, if_pos hright]
    rfl
  rw [if_neg hright, if_neg hright]
  cases hquotient : left.quot? right with
  | none => rfl
  | some quotient =>
    dsimp only
    rw [Wide.rem?_of_quot? hquotient, Guarded.lift_some_bind]
    by_cases hround : left.srem right ≠ 0 ∧ left.slt 0 ≠ right.slt 0
    · rw [if_pos hround, if_pos hround, Wide.pred?_of_quot? hquotient hround.1,
        Guarded.lift_some_bind]
    · rw [if_neg hround, if_neg hround]

theorem evalBinary?_eq (op : Token) (left right : Wide) (position : Nat) :
    evalBinary? op left right position = .ofExcept (evalBinary op left right position) := by
  cases op with
  | divide => exact floorDiv?_eq left right position
  | _ => rfl

/-! ## Signs -/

/-- A sign passes its check on all words but the least. -/
theorem evalUnary?_eq {value : Wide} (hvalue : (BitVec.intMin 128).toInt < value.toInt) (op : Token)
    (position : Nat) : evalUnary? op value position = .ofExcept (evalUnary op value position) := by
  cases op with
  | minus =>
    have hneg : value.neg? = some (-value) := by
      apply if_neg
      rintro rfl
      exact Int.lt_irrefl _ hvalue
    rw [evalUnary?, hneg, Guarded.lift_some_bind]
    rfl
  | _ => rfl

/-! ## Trees -/

namespace Expr

variable {tree : Expr} {value : Wide}

/-- The values that a walk gives to a node are those of a literal or of an operator. -/
theorem bounds_of_walk (h : tree.walk.outcome = .ok value) : tree.Bounds value.toInt := by
  have hagrees := tree.agrees_walk
  rw [h] at hagrees
  exact hagrees.2.2

/-- The walk of a tree passes all checks. -/
theorem guarded_eq (tree : Expr) : tree.guarded = .ofExcept tree.walk.outcome := by
  induction tree with
  | literal token position =>
    rw [guarded, walk, Walk.outcome_visit]
  | unary op operand position ih =>
    rw [guarded, ih, outcome_walk_unary]
    apply Guarded.ofExcept_bind
    intro value hvalue
    rw [evalUnary?_eq (bounds_of_walk hvalue).lower]
    apply Guarded.ofExcept_bind
    intro result _
    rfl
  | binary op left right position ihl ihr =>
    rw [guarded, ihl, ihr, outcome_walk_binary]
    apply Guarded.ofExcept_bind
    intro leftValue _
    apply Guarded.ofExcept_bind
    intro rightValue _
    rw [evalBinary?_eq]
    apply Guarded.ofExcept_bind
    intro result _
    rfl

/-- A value is a signed 64-bit word or, if it is that of a literal, an unsigned one. -/
theorem range_of_walk (h : tree.walk.outcome = .ok value) :
    Int64.minValue.toInt ≤ value.toInt ∧ value.toInt < UInt64.size := by
  have hmin : Int64.minValue.toInt = -9223372036854775808 := rfl
  have hbounds := bounds_of_walk h
  cases tree <;> simp only [Bounds, fits_iff, UInt64.size] at hbounds ⊢ <;> omega

/-- The value of an operator needs no narrowing. -/
theorem isLiteral_of_narrow {error : EvalError} (h : tree.walk.outcome = .ok value)
    (hnarrow : narrow value tree.position = .error error) : tree.IsLiteral := by
  by_contra htree
  have hfits := fits_of_walk h htree
  rw [narrow_eq, exact, if_pos hfits] at hnarrow
  cases hnarrow

end Expr

/-- A walk gives a literal its unsigned value and an operator a signed 64-bit word, so only a
root that is a literal can be too large in the end. With a check at every negation, remainder
and step down, the walk of any tree and the division of any two words end as they do without:
no operation is reached with operands that it overflows on. -/
theorem arithmetic_never_overflows :
    (∀ (tree : Expr) (value : Wide), tree.walk.outcome = .ok value →
      (Int64.minValue.toInt ≤ value.toInt ∧ value.toInt < UInt64.size) ∧
      (¬ tree.IsLiteral → Fits value.toInt) ∧
      ∀ error, narrow value tree.position = .error error → tree.IsLiteral) ∧
    (∀ tree : Expr, tree.guarded.run = some tree.walk.outcome) ∧
    (∀ (left right : Wide) (position : Nat),
      (floorDiv? left right position).run = some (floorDiv left right position)) := by
  refine ⟨?_, ?_, ?_⟩
  · intro tree value h
    exact ⟨Expr.range_of_walk h, Expr.fits_of_walk h, fun _ => Expr.isLiteral_of_narrow h⟩
  · intro tree
    rw [tree.guarded_eq, Guarded.run_ofExcept]
  · intro left right position
    rw [floorDiv?_eq, Guarded.run_ofExcept]

/-- The least result is the negative of a literal, and the largest literal has no result. -/
theorem arithmetic_never_overflows_ends :
    let least := Expr.unary .minus (.literal (.integer 9223372036854775808) 1) 0
    let largest := Expr.literal (.integer 18446744073709551615) 0
    least.walk.outcome = .ok (.ofInt 128 (-9223372036854775808)) ∧
      least.guarded.run = some (.ok (.ofInt 128 (-9223372036854775808))) ∧
      largest.walk.outcome = .ok (.ofInt 128 18446744073709551615) ∧
      narrow (.ofInt 128 18446744073709551615) 0 = .error (.overflow 0) ∧ largest.IsLiteral ∧
      (floorDiv? (BitVec.intMin 128) (-1) 0).run = some (.error (.overflow 0)) := by
  intro least largest
  obtain ⟨hrange, hguarded, hdivision⟩ := arithmetic_never_overflows
  have hleast : least.walk.outcome = .ok (.ofInt 128 (-9223372036854775808)) := by decide
  have hlargest : largest.walk.outcome = .ok (.ofInt 128 18446744073709551615) := by decide
  have hnarrow : narrow (.ofInt 128 18446744073709551615) 0 = .error (.overflow 0) := by decide
  refine ⟨hleast, ?_, hlargest, hnarrow, (hrange largest _ hlargest).2.2 _ hnarrow, ?_⟩
  · rw [hguarded, hleast]
  · rw [hdivision]
    decide

end Abacus
