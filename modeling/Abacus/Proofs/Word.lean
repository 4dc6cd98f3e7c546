import Mathlib.Tactic.Common
import Abacus.Word

/-!
# Exactness of the word operations

Every operation on 128-bit words agrees with the operation on integers, for all
operands.

* `exact value position` — the 64-bit word of an integer, or an overflow where
  64 bits do not hold it.
* `evalBinary_plus` and the lemmas beside it, `floorDiv_eq`, `evalUnary_minus` —
  each operator as exact arithmetic, the quotient rounded toward minus infinity.

An overflow of 128 bits is one of 64 bits, so it does not matter which of the
two was noticed.
-/

namespace Abacus

/-- The integers that a signed 64-bit word holds. -/
def Fits (value : Int) : Prop :=
  Int64.minValue.toInt ≤ value ∧ value ≤ Int64.maxValue.toInt

theorem fits_iff {value : Int} :
    Fits value ↔ -9223372036854775808 ≤ value ∧ value ≤ 9223372036854775807 :=
  Iff.rfl

instance (value : Int) : Decidable (Fits value) :=
  inferInstanceAs (Decidable (_ ∧ _))

/-- An integer as a 64-bit word, if one holds it. -/
def exact (value : Int) (position : Nat) : Except EvalError Int64 :=
  if Fits value then .ok (.ofInt value) else .error (.overflow position)

variable {left right value : Wide} {position : Nat}

theorem exact_of_not_fits {value : Int} (h : ¬ Fits value) :
    exact value position = .error (.overflow position) :=
  if_neg h

theorem toInt_ofInt_of_fits {value : Int} (h : Fits value) : (Int64.ofInt value).toInt = value := by
  rw [fits_iff] at h
  exact Int64.toInt_ofInt_of_le (by omega) (by omega)

/-- A wide word is narrowed without loss, or not at all. -/
theorem narrow_eq (value : Wide) (position : Nat) :
    narrow value position = exact value.toInt position := by
  by_cases h : Int64.minValue.toInt ≤ value.toInt ∧ value.toInt ≤ Int64.maxValue.toInt
  · have hfits : Fits value.toInt := h
    rw [exact, if_pos hfits, narrow, dif_pos h, Int64.ofIntLE_eq_ofInt]
  · have hfits : ¬ Fits value.toInt := h
    rw [exact_of_not_fits hfits, narrow, dif_neg h]

theorem toInt_of_exact {value : Int} {word : Int64} (h : exact value position = .ok word) :
    word.toInt = value := by
  by_cases hfits : Fits value
  · rw [exact, if_pos hfits] at h
    rw [← Except.ok.inj h, toInt_ofInt_of_fits hfits]
  · rw [exact_of_not_fits hfits] at h
    cases h

theorem fits_toInt (word : Int64) : Fits word.toInt :=
  ⟨word.minValue_le_toInt, word.toInt_le⟩

/-- A 64-bit word that was widened is exact again. -/
theorem exact_toInt_ofResult (word : Int64) (position : Nat) :
    exact (Wide.ofResult word).toInt position = .ok word := by
  rw [Wide.toInt_ofResult, exact, if_pos (fits_toInt word), Int64.ofInt_toInt]

/-- An outcome may be widened and narrowed. -/
theorem map_ofResult_bind_exact (outcome : Except EvalError Int64) (position : Nat) :
    ((outcome.map Wide.ofResult).bind fun value => exact value.toInt position) = outcome := by
  rcases outcome with error | word
  · rfl
  · exact exact_toInt_ofResult word position

/-! ## Sums, differences and products -/

/-- An integer that is not below `2 ^ 127`, or is below its negative, is one
beyond 64 bits. -/
theorem not_fits_of_wide {result : Int}
    (h : result ≥ 170141183460469231731687303715884105728 ||
      result < -170141183460469231731687303715884105728) : ¬ Fits result := by
  simp only [Bool.or_eq_true, decide_eq_true_eq] at h
  rw [fits_iff]
  omega

/-- A checked operation is exact if it overflows where its integer result does
not fit, and has that result elsewhere. -/
theorem narrow?_checked {overflow : Bool} {word : Wide} {result : Int}
    (hover : overflow → ¬ Fits result) (hword : ¬ overflow → word.toInt = result)
    (position : Nat) :
    narrow? (if overflow then none else some word) position = exact result position := by
  by_cases h : overflow
  · rw [if_pos h, exact_of_not_fits (hover h)]
    rfl
  · rw [if_neg h, ← hword h]
    exact narrow_eq word position

theorem evalBinary_plus (left right : Wide) (position : Nat) :
    evalBinary .plus left right position = exact (left.toInt + right.toInt) position := by
  refine narrow?_checked ?_ BitVec.toInt_add_of_not_saddOverflow position
  intro hover
  exact not_fits_of_wide hover

theorem evalBinary_minus (left right : Wide) (position : Nat) :
    evalBinary .minus left right position = exact (left.toInt - right.toInt) position := by
  refine narrow?_checked ?_ BitVec.toInt_sub_of_not_ssubOverflow position
  intro hover
  exact not_fits_of_wide hover

theorem evalBinary_times (left right : Wide) (position : Nat) :
    evalBinary .times left right position = exact (left.toInt * right.toInt) position := by
  refine narrow?_checked ?_ BitVec.toInt_mul_of_not_smulOverflow position
  intro hover
  exact not_fits_of_wide hover

/-! ## Quotients -/

theorem Wide.toInt_eq_zero_iff : value.toInt = 0 ↔ value = 0 := by
  rw [← BitVec.toInt_inj, BitVec.ofNat_eq_ofNat, BitVec.toInt_zero]

/-- The floor of a quotient, from the quotient rounded toward zero. -/
theorem fdiv_eq_of_tdiv {l r : Int} (hr : r ≠ 0) :
    l.fdiv r =
      if l.tmod r ≠ 0 ∧ decide (l < 0) ≠ decide (r < 0) then l.tdiv r - 1 else l.tdiv r := by
  rw [Int.fdiv_eq_tdiv]
  by_cases hexact : l.tmod r = 0
  · simp [hexact, Int.dvd_iff_tmod_eq_zero]
  have hndvd : ¬ r ∣ l := mt Int.dvd_iff_tmod_eq_zero.mp hexact
  -- Only the signs of the operands matter now.
  rcases Int.lt_or_gt_of_ne hr with hneg | hpos
  · have hsign : r.sign = -1 := Int.sign_eq_neg_one_of_neg hneg
    by_cases hl : 0 ≤ l <;> simp [hexact, hndvd, hsign, hl, hneg, Int.not_le.mpr hneg]
  · have hsign : r.sign = 1 := Int.sign_eq_one_of_pos hpos
    by_cases hl : 0 ≤ l <;> simp [hexact, hndvd, hsign, hl, Int.le_of_lt hpos] <;> omega

/-- A quotient with a remainder is no larger than half of the dividend. -/
theorem natAbs_tdiv_le_half {l r : Int} (hr : r ≠ 0) (hinexact : l.tmod r ≠ 0) :
    (l.tdiv r).natAbs ≤ l.natAbs / 2 := by
  have htwo : 2 ≤ r.natAbs := by
    by_contra hsmall
    have hone : r.natAbs = 1 := by omega
    exact hinexact (Int.tmod_eq_zero_of_dvd (Int.natAbs_dvd_natAbs.mp (hone ▸ Nat.one_dvd _)))
  rw [Int.natAbs_tdiv]
  exact Nat.div_le_div_left htwo (by decide)

/-- A division that overflows 128 bits has a floor that 64 bits do not hold. -/
theorem not_fits_fdiv_of_sdivOverflow (h : left.sdivOverflow right) :
    ¬ Fits (left.toInt.fdiv right.toInt) := by
  simp only [BitVec.sdivOverflow, Bool.or_eq_true, decide_eq_true_eq] at h
  rw [Int.fdiv_eq_ediv]
  rw [fits_iff]
  split <;> omega

/-- A division that does not overflow truncates the exact quotient. -/
theorem toInt_sdiv_of_not_sdivOverflow (h : ¬ left.sdivOverflow right) :
    (left.sdiv right).toInt = left.toInt.tdiv right.toInt := by
  refine BitVec.toInt_sdiv_of_ne_or_ne left right ?_
  by_contra hboth
  simp only [not_or, not_not] at hboth
  obtain ⟨rfl, rfl⟩ := hboth
  exact h (by decide)

/-- A quotient with a remainder is far from the least word, so one less is still a word. -/
theorem not_ssubOverflow_one (hright : right.toInt ≠ 0) (hover : ¬ left.sdivOverflow right)
    (hrem : left.srem right ≠ 0) : ¬ (left.sdiv right).ssubOverflow 1 := by
  have hinexact : left.toInt.tmod right.toInt ≠ 0 := by
    rwa [← BitVec.toInt_srem, ← BitVec.toInt_zero, BitVec.toInt_ne]
  have hhalf := natAbs_tdiv_le_half hright hinexact
  have hlow := left.le_toInt
  have hhigh := left.toInt_lt
  have hone : (1 : Wide).toInt = 1 := by decide
  simp only [BitVec.ssubOverflow, toInt_sdiv_of_not_sdivOverflow hover, hone, Bool.or_eq_true,
    decide_eq_true_eq]
  omega

theorem floorDiv_zero (left : Wide) (position : Nat) :
    floorDiv left 0 position = .error (.divisionByZero position) := by
  simp [floorDiv]

/-- Division rounds toward minus infinity. -/
theorem floorDiv_eq (left : Wide) (hright : right ≠ 0) (position : Nat) :
    floorDiv left right position = exact (left.toInt.fdiv right.toInt) position := by
  have hr : right.toInt ≠ 0 := mt Wide.toInt_eq_zero_iff.mp hright
  rw [floorDiv, if_neg hright]
  by_cases hover : left.sdivOverflow right
  · -- The least word divided by minus one.
    have hnone : left.quot? right = none := by simp [Wide.quot?, hover]
    rw [hnone, exact_of_not_fits (not_fits_fdiv_of_sdivOverflow hover)]
  have hsome : left.quot? right = some (left.sdiv right) := by
    simp only [Wide.quot?, decide_eq_false hright, Bool.false_or, if_neg hover]
  have hquotient := toInt_sdiv_of_not_sdivOverflow hover
  have hrem : left.srem right ≠ 0 ↔ left.toInt.tmod right.toInt ≠ 0 := by
    rw [← BitVec.toInt_srem, ← BitVec.toInt_ne, BitVec.ofNat_eq_ofNat, BitVec.toInt_zero]
  have hsigns : left.slt 0 ≠ right.slt 0 ↔
      decide (left.toInt < 0) ≠ decide (right.toInt < 0) := Iff.rfl
  rw [fdiv_eq_of_tdiv hr, hsome]
  dsimp only
  by_cases hround : left.srem right ≠ 0 ∧ left.slt 0 ≠ right.slt 0
  · have hone : (1 : Wide).toInt = 1 := by decide
    have hfits := not_ssubOverflow_one hr hover hround.1
    rw [if_pos hround, if_pos ⟨hrem.mp hround.1, hsigns.mp hround.2⟩, narrow_eq,
      BitVec.toInt_sub_of_not_ssubOverflow hfits, hquotient, hone]
  · rw [if_neg hround, if_neg (by rwa [hrem, hsigns] at hround), narrow_eq, hquotient]

/-! ## Signs -/

theorem evalUnary_plus (value : Wide) (position : Nat) :
    evalUnary .plus value position = exact value.toInt position :=
  narrow_eq value position

/-- The one word without a negative is far from those that a tree evaluates to. -/
theorem evalUnary_minus (hvalue : (BitVec.intMin 128).toInt < value.toInt) (position : Nat) :
    evalUnary .minus value position = exact (-value.toInt) position := by
  have hmin : value ≠ BitVec.intMin 128 := by
    rintro rfl
    exact Int.lt_irrefl _ hvalue
  rw [evalUnary, narrow_eq, BitVec.toInt_neg_of_ne_intMin hmin]

end Abacus
