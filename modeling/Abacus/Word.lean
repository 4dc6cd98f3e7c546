import Abacus.Error

/-!
# Machine words

Values are computed in signed words of 128 bits and kept in signed words of 64
bits.

* `Wide` — a 128-bit word. Its operations with a question mark give nothing
  where the exact result needs more bits; the others wrap around.
* `narrow` — a wide word as a 64-bit word, or an overflow.
* `floorDiv` — division that rounds toward minus infinity.
* `evalUnary`, `evalBinary` — what an operator token does to its operands.
-/

namespace Abacus

/-- A signed word of 128 bits, in two's complement. -/
abbrev Wide := BitVec 128

namespace Wide

/-- An unsigned 64-bit word; all of them fit. -/
def ofLiteral (value : UInt64) : Wide := value.toBitVec.setWidth 128

/-- A signed 64-bit word; all of them fit. -/
def ofResult (value : Int64) : Wide := value.toBitVec.signExtend 128

/-- The sum, if it fits. -/
def add? (left right : Wide) : Option Wide :=
  if left.saddOverflow right then none else some (left + right)

/-- The difference, if it fits. -/
def sub? (left right : Wide) : Option Wide :=
  if left.ssubOverflow right then none else some (left - right)

/-- The product, if it fits. -/
def mul? (left right : Wide) : Option Wide :=
  if left.smulOverflow right then none else some (left * right)

/-- The quotient rounded toward zero, if there is one and it fits. -/
def quot? (left right : Wide) : Option Wide :=
  if right = 0 || left.sdivOverflow right then none else some (left.sdiv right)

theorem toInt_ofLiteral (value : UInt64) : (ofLiteral value).toInt = value.toNat := by
  have bound := value.toNat_lt
  have same : (ofLiteral value).toNat = value.toNat := by
    rw [ofLiteral, BitVec.toNat_setWidth, UInt64.toNat_toBitVec]
    exact Nat.mod_eq_of_lt (by omega)
  rw [BitVec.toInt_eq_toNat_of_lt (by omega), same]

theorem toInt_ofResult (value : Int64) : (ofResult value).toInt = value.toInt :=
  BitVec.toInt_signExtend_of_le (by omega)

end Wide

/-- The 64-bit word of the same value, or an overflow at `position`. -/
def narrow (value : Wide) (position : Nat) : Except EvalError Int64 :=
  if fits : Int64.minValue.toInt ≤ value.toInt ∧ value.toInt ≤ Int64.maxValue.toInt then
    .ok (.ofIntLE value.toInt fits.1 fits.2)
  else
    .error (.overflow position)

/-- The quotient rounded toward minus infinity. The quotient rounded toward
zero is one more where the division leaves a remainder and the operands have
different signs. -/
def floorDiv (left right : Wide) (position : Nat) : Except EvalError Int64 :=
  if right = 0 then
    .error (.divisionByZero position)
  else
    match left.quot? right with
    | none => .error (.overflow position)
    | some quotient =>
      -- The quotient was rounded up where the exact one is negative.
      if left.srem right ≠ 0 ∧ left.slt 0 ≠ right.slt 0 then
        narrow (quotient - 1) position
      else
        narrow quotient position

/-- What the operator `op` makes of one operand. -/
def evalUnary (op : Token) (value : Wide) (position : Nat) : Except EvalError Int64 :=
  match op with
  | .plus => narrow value position
  | .minus => narrow (-value) position
  | op => .error (.internal (op.display ++ " is not a unary operator") position)

/-- A result of exact arithmetic as a 64-bit word. -/
def narrow? (value : Option Wide) (position : Nat) : Except EvalError Int64 :=
  match value with
  | some value => narrow value position
  | none => .error (.overflow position)

/-- What the operator `op` makes of two operands. -/
def evalBinary (op : Token) (left right : Wide) (position : Nat) : Except EvalError Int64 :=
  match op with
  | .plus => narrow? (left.add? right) position
  | .minus => narrow? (left.sub? right) position
  | .times => narrow? (left.mul? right) position
  | .divide => floorDiv left right position
  | op => .error (.internal (op.display ++ " is not a binary operator") position)

end Abacus
