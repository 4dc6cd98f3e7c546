import Abacus.Proofs.Word

/-!
# Operators and their integers

What the operators give for any two wide words, told by integers and products of
integers alone.

* `IsFloor` — a quotient rounded toward minus infinity: the dividend lies between
  the multiple of the divisor that it names and the next one.
* `isFloor_iff` — every divisor but zero has exactly one, the one that `Int.fdiv` computes.
* `Yields` — the outcome of an operation with a given exact result.
* `evalBinary_exact` — sums, differences, products and quotients, with all their errors.
-/

namespace Abacus

/-! ## Floors -/

/-- `quotient` is the quotient of `left` by `right`, rounded toward minus infinity. A
negative divisor turns both inequalities around. -/
inductive IsFloor (left right quotient : Int) : Prop where
  | pos (hright : 0 < right) (hlow : quotient * right ≤ left)
    (hhigh : left < (quotient + 1) * right) : IsFloor left right quotient
  | neg (hright : right < 0) (hhigh : left ≤ quotient * right)
    (hlow : (quotient + 1) * right < left) : IsFloor left right quotient

section

variable {left right quotient : Int}

theorem isFloor_iff_of_pos (hright : 0 < right) :
    IsFloor left right quotient ↔ quotient = left.fdiv right := by
  rw [Int.fdiv_eq_ediv_of_nonneg left (Int.le_of_lt hright), eq_comm,
    Int.ediv_eq_iff_of_pos hright]
  have hnext : (quotient + 1) * right = quotient * right + right := by
    rw [Int.add_mul, Int.one_mul]
  constructor
  · intro h
    cases h with
    | pos _ hlow hhigh => exact ⟨hlow, hnext ▸ hhigh⟩
    | neg hneg => exact absurd hright (Int.not_lt.mpr (Int.le_of_lt hneg))
  · rintro ⟨hlow, hhigh⟩
    exact .pos hright hlow (hnext ▸ hhigh)

/-- A quotient stays the same if dividend and divisor change their signs. -/
theorem IsFloor.negated (h : IsFloor left right quotient) : IsFloor (-left) (-right) quotient := by
  cases h with
  | pos hright hlow hhigh =>
    refine .neg (Int.neg_neg_of_pos hright) ?_ ?_
    · rw [Int.mul_neg]
      exact Int.neg_le_neg hlow
    · rw [Int.mul_neg]
      exact Int.neg_lt_neg hhigh
  | neg hright hhigh hlow =>
    refine .pos (Int.neg_pos_of_neg hright) ?_ ?_
    · rw [Int.mul_neg]
      exact Int.neg_le_neg hhigh
    · rw [Int.mul_neg]
      exact Int.neg_lt_neg hlow

/-- There is one quotient by any number that is not zero. -/
theorem isFloor_iff (hright : right ≠ 0) :
    IsFloor left right quotient ↔ quotient = left.fdiv right := by
  rcases Int.lt_or_gt_of_ne hright with hneg | hpos
  · -- The signs of both numbers are changed, and the divisor is positive.
    have hflip : IsFloor left right quotient ↔ IsFloor (-left) (-right) quotient := by
      constructor
      · exact IsFloor.negated
      · intro h
        simpa only [Int.neg_neg] using h.negated
    rw [hflip, isFloor_iff_of_pos (Int.neg_pos_of_neg hneg), Int.neg_fdiv_neg]
  · exact isFloor_iff_of_pos hpos

end

/-! ## Outcomes -/

/-- The outcome of an operation at `position` whose exact result is `value`: the word of
that value, and an overflow exactly where there is none. -/
structure Yields (value : Int) (position : Nat) (outcome : Except EvalError Int64) : Prop where
  ok_iff : ∀ word, outcome = .ok word ↔ Fits value ∧ word.toInt = value
  error_iff : ∀ error, outcome = .error error ↔ ¬ Fits value ∧ error = .overflow position

theorem yields_exact (value : Int) (position : Nat) :
    Yields value position (exact value position) := by
  by_cases hfits : Fits value
  · have hvalue := toInt_ofInt_of_fits hfits
    rw [exact, if_pos hfits]
    constructor
    · intro word
      rw [Except.ok.injEq, ← Int64.toInt_inj, hvalue]
      exact ⟨fun h => ⟨hfits, h.symm⟩, fun h => h.2.symm⟩
    · intro error
      constructor
      · intro h
        cases h
      · intro h
        exact absurd hfits h.1
  · rw [exact_of_not_fits hfits]
    constructor
    · intro word
      constructor
      · intro h
        cases h
      · intro h
        exact absurd h.1 hfits
    · intro error
      rw [Except.error.injEq]
      exact ⟨fun h => ⟨hfits, h.symm⟩, fun h => h.2.symm⟩

/-! ## Operators -/

variable {left right : Wide} {position : Nat}

/-- Zero is the one divisor that is refused. -/
theorem floorDiv_eq_divisionByZero_iff :
    floorDiv left right position = .error (.divisionByZero position) ↔ right.toInt = 0 := by
  rw [Wide.toInt_eq_zero_iff]
  constructor
  · intro h
    by_contra hright
    rw [floorDiv_eq left hright, (yields_exact _ _).error_iff] at h
    cases h.2
  · rintro rfl
    exact floorDiv_zero left position

/-- A division by any number but zero yields the floor of the exact quotient. -/
theorem yields_floorDiv (hright : right.toInt ≠ 0) :
    Yields (left.toInt.fdiv right.toInt) position (floorDiv left right position) := by
  rw [floorDiv_eq left (mt Wide.toInt_eq_zero_iff.mpr hright)]
  exact yields_exact _ position

/-- For any two wide words `+`, `-` and `*` yield the exact sum, difference and product,
and `/` yields the one quotient rounded toward minus infinity, unless the divisor is zero. -/
theorem evalBinary_exact (left right : Wide) (position : Nat) :
    Yields (left.toInt + right.toInt) position (evalBinary .plus left right position) ∧
    Yields (left.toInt - right.toInt) position (evalBinary .minus left right position) ∧
    Yields (left.toInt * right.toInt) position (evalBinary .times left right position) ∧
    evalBinary .divide left right position = floorDiv left right position ∧
    (floorDiv left right position = .error (.divisionByZero position) ↔ right.toInt = 0) ∧
    (right.toInt ≠ 0 →
      ∃ quotient, (∀ other, IsFloor left.toInt right.toInt other ↔ other = quotient) ∧
        Yields quotient position (floorDiv left right position)) := by
  refine ⟨?_, ?_, ?_, rfl, floorDiv_eq_divisionByZero_iff, ?_⟩
  · rw [evalBinary_plus]
    exact yields_exact _ position
  · rw [evalBinary_minus]
    exact yields_exact _ position
  · rw [evalBinary_times]
    exact yields_exact _ position
  · intro hright
    exact ⟨_, fun _ => isFloor_iff hright, yields_floorDiv hright⟩

/-- Rounded toward zero this quotient would be the least 64-bit word; rounded down it is
one less. -/
theorem evalBinary_exact_below_least :
    (2 : Wide).toInt ≠ 0 ∧
      evalBinary .divide (.ofInt 128 (-18446744073709551617)) 2 7 = .error (.overflow 7) := by
  have hright : (2 : Wide).toInt ≠ 0 := by decide
  refine ⟨hright, ?_⟩
  obtain ⟨-, -, -, hdivide, -, hfloor⟩ :=
    evalBinary_exact (.ofInt 128 (-18446744073709551617)) 2 7
  obtain ⟨quotient, hunique, hyields⟩ := hfloor hright
  have hquotient : -9223372036854775809 = quotient :=
    (hunique _).mp (.pos (by decide) (by decide) (by decide))
  rw [hdivide, hyields.error_iff, ← hquotient]
  exact ⟨by decide, rfl⟩

end Abacus
