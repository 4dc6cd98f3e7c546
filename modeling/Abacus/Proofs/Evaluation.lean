import Abacus.Expr.Eval
import Abacus.Proofs.Word

/-!
# Evaluation is exact arithmetic

A second account of the value of a tree, over integers without bounds.

* `Expr.meaning?` — the integer that a tree denotes.
* `Expr.fault?` — what is wrong with one node, given what its operands denote.
* `Expr.postorder`, `Expr.firstFault?` — the nodes in the order of a walk, and
  the fault of the first of them that has one.
* `Expr.agrees_walk`, `evaluate_exact` — the walk and the value of any tree are
  those of this account.

The invariant of the walk is that operators leave 64-bit values and literals
unsigned ones, so that no negation wraps around.
-/

namespace Abacus

namespace Expr

/-! ## Meaning -/

/-- The integer that a literal token denotes. -/
def literalMeaning? : Token → Option Int
  | .integer value => some value.toNat
  | _ => none

/-- What an operator makes of the integer after it. -/
def unaryMeaning? (op : Token) (value : Int) : Option Int :=
  match op with
  | .plus => some value
  | .minus => some (-value)
  | _ => none

/-- What an operator makes of the integers on its two sides. A quotient is
rounded toward minus infinity. -/
def binaryMeaning? (op : Token) (left right : Int) : Option Int :=
  match op with
  | .plus => some (left + right)
  | .minus => some (left - right)
  | .times => some (left * right)
  | .divide => if right = 0 then none else some (left.fdiv right)
  | _ => none

/-- The integer that a tree denotes, if its tokens make sense and nothing in it
is divided by zero. -/
def meaning? : Expr → Option Int
  | literal token _ => literalMeaning? token
  | unary op operand _ => do unaryMeaning? op (← operand.meaning?)
  | binary op left right _ => do binaryMeaning? op (← left.meaning?) (← right.meaning?)

/-! ## Faults -/

/-- An integer that 64 bits do not hold is an overflow. -/
def overflow? (value : Int) (position : Nat) : Option EvalError :=
  if Fits value then none else some (.overflow position)

/-- What is wrong with the root of a tree: its token, a zero divisor, or an
exact value that 64 bits do not hold. A literal may have any value. -/
def fault? (node : Expr) : Option EvalError :=
  match node with
  | literal (.integer _) _ => none
  | literal token position =>
    some (.internal ("literal node holds " ++ token.display) position)
  | unary op _ position =>
    if op.isAdditive then
      node.meaning?.bind fun value => overflow? value position
    else
      some (.internal (op.display ++ " is not a unary operator") position)
  | binary op _ right position =>
    if op.isAdditive || op.isMultiplicative then
      if op = .divide ∧ right.meaning? = some 0 then
        some (.divisionByZero position)
      else
        node.meaning?.bind fun value => overflow? value position
    else
      some (.internal (op.display ++ " is not a binary operator") position)

/-- The nodes of a tree: those of the left subtree, those of the right one, and
the root. -/
def postorder (tree : Expr) : List Expr :=
  match tree with
  | literal _ _ => [tree]
  | unary _ operand _ => operand.postorder ++ [tree]
  | binary _ left right _ => left.postorder ++ right.postorder ++ [tree]

/-- The fault of the first faulty node. -/
def firstFault? (tree : Expr) : Option EvalError :=
  tree.postorder.findSome? fault?

variable {op : Token} {operand left right tree : Expr} {position : Nat} {value : Int}

theorem firstFault?_literal {token : Token} :
    (literal token position).firstFault? = (literal token position).fault? := by
  simp [firstFault?, postorder]

theorem firstFault?_unary :
    (unary op operand position).firstFault? =
      operand.firstFault?.or (unary op operand position).fault? := by
  simp [firstFault?, postorder, List.findSome?_append]

theorem firstFault?_binary :
    (binary op left right position).firstFault? =
      left.firstFault?.or (right.firstFault?.or (binary op left right position).fault?) := by
  simp [firstFault?, postorder, List.findSome?_append]

/-! ## The walk -/

/-- The values that the walk can give to a node. -/
def Bounds : Expr → Int → Prop
  | literal _ _, value => 0 ≤ value ∧ value < UInt64.size
  | _, value => Fits value

/-- No value of a node is near the ends of 128 bits. -/
theorem Bounds.lower (h : tree.Bounds value) : (BitVec.intMin 128).toInt < value := by
  have hmin : (BitVec.intMin 128).toInt = -170141183460469231731687303715884105728 := rfl
  cases tree <;> simp only [Bounds, fits_iff] at h <;> omega

/-- A walk over the tree that ends like this ends at the first fault, or with
the tree's meaning if there is none. -/
def Agrees (tree : Expr) : Except EvalError Wide → Prop
  | .error error => tree.firstFault? = some error
  | .ok value =>
    tree.firstFault? = none ∧ tree.meaning? = some value.toInt ∧ tree.Bounds value.toInt

/-- A node agrees with its exact value if no operand is at fault and the node itself is only
at fault if the value does not fit. -/
theorem agrees_exact (hmeaning : tree.meaning? = some value)
    (hfault : tree.firstFault? = overflow? value position)
    (hbounds : ∀ value, Fits value → tree.Bounds value) :
    tree.Agrees ((exact value position).map Wide.ofResult) := by
  by_cases hfits : Fits value
  · -- The word keeps the value, and the next operator sees it undiminished.
    have hvalue : (Wide.ofResult (.ofInt value)).toInt = value := by
      rw [Wide.toInt_ofResult, toInt_ofInt_of_fits hfits]
    rw [exact, if_pos hfits]
    refine ⟨by rw [hfault, overflow?, if_pos hfits], ?_, hbounds _ ?_⟩
    · rw [hmeaning, hvalue]
    · rwa [hvalue]
  · rw [exact_of_not_fits hfits]
    change tree.firstFault? = some (.overflow position)
    rw [hfault, overflow?, if_neg hfits]

theorem agrees_literal (token : Token) (position : Nat) :
    (literal token position).Agrees (literalValue token position) := by
  cases token with
  | integer value =>
    have hvalue := Wide.toInt_ofLiteral value
    have hbound := value.toNat_lt
    refine ⟨firstFault?_literal, ?_, ?_⟩
    · rw [hvalue]
      rfl
    · rw [hvalue]
      simp only [Bounds, UInt64.size]
      omega
  | _ => exact firstFault?_literal

/-- If the operand has a value, the step at a sign agrees with the meaning of the node. -/
theorem agrees_unary {value : Wide} (h : operand.Agrees (.ok value)) :
    (unary op operand position).Agrees ((evalUnary op value position).map Wide.ofResult) := by
  obtain ⟨hfault, hmeaning, hbounds⟩ := h
  have hfault : (unary op operand position).firstFault? = (unary op operand position).fault? := by
    rw [firstFault?_unary, hfault, Option.none_or]
  cases op with
  | plus =>
    have hnode : (unary .plus operand position).meaning? = some value.toInt := by
      simp [meaning?, hmeaning, unaryMeaning?]
    rw [evalUnary_plus]
    exact agrees_exact hnode (by simp [hfault, fault?, hnode, Token.isAdditive]) fun _ => id
  | minus =>
    have hnode : (unary .minus operand position).meaning? = some (-value.toInt) := by
      simp [meaning?, hmeaning, unaryMeaning?]
    rw [evalUnary_minus hbounds.lower]
    exact agrees_exact hnode (by simp [hfault, fault?, hnode, Token.isAdditive]) fun _ => id
  | _ => exact hfault

/-- If both operands have values, the step at the operator agrees with the meaning of the
node. -/
theorem agrees_binary {leftValue rightValue : Wide} (hleft : left.Agrees (.ok leftValue))
    (hright : right.Agrees (.ok rightValue)) :
    (binary op left right position).Agrees
      ((evalBinary op leftValue rightValue position).map Wide.ofResult) := by
  obtain ⟨hleftFault, hleft, -⟩ := hleft
  obtain ⟨hrightFault, hright, -⟩ := hright
  have hfault : (binary op left right position).firstFault? =
      (binary op left right position).fault? := by
    rw [firstFault?_binary, hleftFault, hrightFault, Option.none_or, Option.none_or]
  have hmeaning : (binary op left right position).meaning? =
      binaryMeaning? op leftValue.toInt rightValue.toInt := by
    simp [meaning?, hleft, hright]
  -- The four operators differ in their exact value only.
  have hexact {value : Int} (hop : op.isAdditive || op.isMultiplicative)
      (hdivisor : ¬ (op = .divide ∧ right.meaning? = some 0))
      (hnode : binaryMeaning? op leftValue.toInt rightValue.toInt = some value)
      (hrun : evalBinary op leftValue rightValue position = exact value position) :
      (binary op left right position).Agrees
        ((evalBinary op leftValue rightValue position).map Wide.ofResult) := by
    rw [hrun]
    refine agrees_exact (hmeaning.trans hnode) ?_ fun _ => id
    rw [hfault, fault?, if_pos hop, if_neg hdivisor, hmeaning, hnode, Option.bind_some]
  cases op with
  | plus => exact hexact rfl (fun h => by cases h.1) rfl (evalBinary_plus ..)
  | minus => exact hexact rfl (fun h => by cases h.1) rfl (evalBinary_minus ..)
  | times => exact hexact rfl (fun h => by cases h.1) rfl (evalBinary_times ..)
  | divide =>
    by_cases hzero : rightValue = 0
    · subst hzero
      have hdivisor : right.meaning? = some 0 := hright
      have hrun : evalBinary .divide leftValue 0 position = .error (.divisionByZero position) :=
        floorDiv_zero leftValue position
      rw [hrun]
      change (binary .divide left right position).firstFault? = _
      simp [hfault, fault?, hdivisor, Token.isMultiplicative]
    · have hnonzero : rightValue.toInt ≠ 0 := mt Wide.toInt_eq_zero_iff.mp hzero
      refine hexact rfl ?_ (if_neg hnonzero) (floorDiv_eq leftValue hzero position)
      simp [hright, hnonzero]
  | _ => exact hfault

/-- The walk of a tree agrees with its meaning and faults. -/
theorem agrees_walk (tree : Expr) : tree.Agrees tree.walk.outcome := by
  induction tree with
  | literal token position =>
    rw [walk, Walk.outcome_visit]
    exact agrees_literal token position
  | unary op operand position ih =>
    rw [walk, Walk.outcome_bind]
    simp only [Walk.outcome_visit]
    rcases hrun : operand.walk.outcome with error | value
    · -- The walk has ended inside the operand.
      rw [hrun] at ih
      have hfirst : operand.firstFault? = some error := ih
      change (unary op operand position).firstFault? = some error
      rw [firstFault?_unary, hfirst, Option.some_or]
    · exact agrees_unary (hrun ▸ ih)
  | binary op left right position ihl ihr =>
    rw [walk, Walk.outcome_bind]
    simp only [Walk.outcome_bind, Walk.outcome_visit]
    rcases hleft : left.walk.outcome with error | leftValue
    · -- The walk has ended inside the left operand, whatever is in the right one.
      rw [hleft] at ihl
      have hfirst : left.firstFault? = some error := ihl
      change (binary op left right position).firstFault? = some error
      rw [firstFault?_binary, hfirst, Option.some_or]
    rw [hleft] at ihl
    rcases hright : right.walk.outcome with error | rightValue
    · rw [hright] at ihr
      have hfirst : right.firstFault? = some error := ihr
      change (binary op left right position).firstFault? = some error
      rw [firstFault?_binary, ihl.1, Option.none_or, hfirst, Option.some_or]
    · exact agrees_binary ihl (hright ▸ ihr)

/-! ## Values -/

/-- The trees of one node. -/
def IsLiteral : Expr → Prop
  | literal _ _ => True
  | _ => False

/-- The value of the walk is narrowed at the root. -/
theorem evaluate_eq (tree : Expr) :
    tree.evaluate = tree.walk.outcome.bind fun value => exact value.toInt tree.position := by
  have hnarrow : (fun value => exact value.toInt tree.position) =
      fun value => (Walk.lift (narrow value tree.position)).outcome := by
    funext value
    exact (narrow_eq value tree.position).symm
  rw [evaluate, evaluation, Walk.outcome_bind, hnarrow]

/-- The walk of an operator ends like its operands and then the operator. -/
theorem outcome_walk_unary :
    (unary op operand position).walk.outcome =
      operand.walk.outcome >>= fun value =>
      evalUnary op value position >>= fun result => pure (Wide.ofResult result) := by
  rw [walk, Walk.outcome_bind]
  simp only [Walk.outcome_visit]
  rfl

theorem outcome_walk_binary :
    (binary op left right position).walk.outcome =
      left.walk.outcome >>= fun leftValue =>
      right.walk.outcome >>= fun rightValue =>
      evalBinary op leftValue rightValue position >>= fun result =>
      pure (Wide.ofResult result) := by
  rw [walk, Walk.outcome_bind]
  simp only [Walk.outcome_bind, Walk.outcome_visit]
  rfl

/-- The value of an operator needs no narrowing. -/
theorem evaluate_unary :
    (unary op operand position).evaluate =
      operand.walk.outcome >>= fun value => evalUnary op value position := by
  rw [evaluate_eq, outcome_walk_unary]
  rcases operand.walk.outcome with error | value
  · rfl
  · exact map_ofResult_bind_exact _ _

theorem evaluate_binary :
    (binary op left right position).evaluate =
      left.walk.outcome >>= fun leftValue =>
      right.walk.outcome >>= fun rightValue => evalBinary op leftValue rightValue position := by
  rw [evaluate_eq, outcome_walk_binary]
  rcases left.walk.outcome with error | leftValue
  · rfl
  rcases right.walk.outcome with error | rightValue
  · rfl
  · exact map_ofResult_bind_exact _ _

/-- A tree that has a value has it in the walk already. -/
theorem walk_of_evaluate {word : Int64} (h : tree.evaluate = .ok word) :
    tree.walk.outcome = .ok (Wide.ofResult word) := by
  rw [evaluate_eq] at h
  rcases hrun : tree.walk.outcome with error | value
  · rw [hrun] at h
    cases h
  · rw [hrun] at h
    have hword : (Wide.ofResult word).toInt = value.toInt := by
      rw [Wide.toInt_ofResult]
      exact toInt_of_exact h
    rw [BitVec.eq_of_toInt_eq hword]

/-- Only a literal can have a value that does not fit. -/
theorem Bounds.fits_iff (h : tree.Bounds value) :
    Fits value ↔ ¬ (tree.IsLiteral ∧ Int64.maxValue.toInt < value) := by
  cases tree with
  | literal token position =>
    have hmax : Int64.maxValue.toInt = 9223372036854775807 := rfl
    simp only [Bounds, fits_iff, UInt64.size, IsLiteral, true_and] at h ⊢
    omega
  | _ =>
    have hfits : Fits value := h
    exact iff_of_true hfits fun hlarge => hlarge.1

/-- An operator leaves a value that fits. -/
theorem fits_of_walk {value : Wide} (hwalk : tree.walk.outcome = .ok value)
    (htree : ¬ tree.IsLiteral) : Fits value.toInt := by
  have hagrees := tree.agrees_walk
  rw [hwalk] at hagrees
  obtain ⟨-, -, hbounds⟩ := hagrees
  exact hbounds.fits_iff.mpr fun hlarge => htree hlarge.1

/-- The value of any tree is its meaning, unless a node is at fault: then the
first such node is reported. A literal that stands alone has to fit as well. -/
theorem evaluate_exact (tree : Expr) :
    match tree.firstFault? with
    | some error => tree.evaluate = .error error
    | none =>
      ∃ value, tree.meaning? = some value ∧
        (tree.IsLiteral ∧ Int64.maxValue.toInt < value →
          tree.evaluate = .error (.overflow tree.position)) ∧
        (¬ (tree.IsLiteral ∧ Int64.maxValue.toInt < value) →
          ∃ word, tree.evaluate = .ok word ∧ word.toInt = value) := by
  have hwalk := tree.agrees_walk
  rw [tree.evaluate_eq]
  rcases hrun : tree.walk.outcome with error | value
  · rw [hrun] at hwalk
    have hfault : tree.firstFault? = some error := hwalk
    rw [hfault]
    rfl
  · rw [hrun] at hwalk
    obtain ⟨hfault, hmeaning, hbounds⟩ := hwalk
    rw [hfault]
    refine ⟨value.toInt, hmeaning, fun hlarge => ?_, fun hsmall => ?_⟩
    · exact exact_of_not_fits (mt hbounds.fits_iff.mp (not_not.mpr hlarge))
    · have hfits := hbounds.fits_iff.mpr hsmall
      exact ⟨.ofInt value.toInt, if_pos hfits, toInt_ofInt_of_fits hfits⟩

end Expr

end Abacus
