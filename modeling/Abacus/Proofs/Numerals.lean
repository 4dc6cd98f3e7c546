import Mathlib.Algebra.Group.Nat.Defs
import Abacus.Proofs.Embedding
import Abacus.Proofs.Folding

/-!
# Numbers written in decimal

Texts of one number and what they are read as.

* `numeral` — the decimal text of an integer, with some zeros in front of its digits;
  `numeral_zero` says that without them it is the text in which values are printed.
* `Source.Reads.digits`, `Source.scan_tooLarge` — a run of digits is one integer, or too large.
* `interpret_digits`, `interpret_tooLarge` — the value of a run of digits, or its error.
* `Source.exists_expresses_numeral` — a numeral is an expression, of the decimal form of its
  word.
* `interpret_numeral` — values that are printed are read back, and every run of digits has its
  value or the error of the first limit that it exceeds.

There are three limits: 64 bits for the digits, the sign before anything is narrowed, and the
narrowing at the root. So the digits of the least word are read, but have no value alone.
-/

namespace Abacus

/-! ## Texts of digits -/

/-- The decimal text of an integer, with zeros in front of its digits. -/
def numeral (zeros : Nat) (value : Int) : String :=
  (if value < 0 then "-" else "") ++ String.ofList (List.replicate zeros '0') ++
    toString value.natAbs

/-- The numeral without zeros in front is the text in which the integer is printed. -/
theorem numeral_zero (value : Int) : numeral 0 value = toString value := by
  have hnil : String.ofList (List.replicate 0 '0') = "" := rfl
  rw [numeral, hnil, String.append_empty, Int.toString_eq_repr, Int.repr_eq_if]
  by_cases hneg : value < 0
  · have habs : (-value).toNat = value.natAbs := by omega
    rw [if_pos hneg, if_neg (Int.not_le.mpr hneg), habs]
    rfl
  · have habs : value.toNat = value.natAbs := by omega
    rw [if_neg hneg, if_pos (Int.not_lt.mp hneg), habs, String.empty_append]
    rfl

/-- The digits of a numeral. -/
def zeroed (zeros n : Nat) : List Char := List.replicate zeros '0' ++ Nat.toDigits 10 n

theorem zeroed_ne_nil (zeros n : Nat) : zeroed zeros n ≠ [] :=
  List.append_ne_nil_of_right_ne_nil _ Nat.toDigits_ne_nil

theorem isDigit_of_mem_zeroed {zeros n : Nat} : ∀ c ∈ zeroed zeros n, c.isDigit := by
  intro c hc
  rcases List.mem_append.mp hc with hzero | hdigit
  · rw [List.eq_of_mem_replicate hzero]
    rfl
  · exact Nat.isDigit_of_mem_toDigits (by decide) (by decide) hdigit

/-- Zeros in front do not count. -/
theorem ofDigitChars_zeroed (zeros n : Nat) : Nat.ofDigitChars 10 (zeroed zeros n) 0 = n := by
  rw [zeroed, Nat.ofDigitChars_append, Nat.ofDigitChars_replicate_zero, Nat.mul_zero,
    Nat.ofDigitChars_ten_toDigits]

theorem toList_numeral (zeros : Nat) (value : Int) :
    (numeral zeros value).toList =
      (if value < 0 then ['-'] else []) ++ zeroed zeros value.natAbs := by
  rw [numeral, zeroed, String.toList_append, String.toList_append, String.toList_ofList,
    Nat.toString_eq_ofList_toDigits, String.toList_ofList, List.append_assoc]
  split <;> rfl

/-! ## Reading -/

namespace Source

open Text (MaximalRun)

variable {cs : List Char}

/-- Digits that stand alone are as many as can be. -/
theorem maximalRun_digits (h : ∀ c ∈ cs, c.isDigit) : MaximalRun Char.isDigit [] cs [] where
  all := h
  before := by simp
  after := by simp

/-- Digits whose value 64 bits hold are read as one integer. -/
theorem Reads.digits (hne : cs ≠ []) (h : ∀ c ∈ cs, c.isDigit) {value : UInt64}
    (hvalue : value.toNat = Nat.ofDigitChars 10 cs 0) (offset : Nat) :
    Reads offset cs [⟨.integer value, offset⟩] := by
  have hspells : Spells [] [] cs (.integer value) :=
    .integer hne (maximalRun_digits h) hvalue
  exact hspells.reads offset

/-- A text of digits whose value 64 bits do not hold is read as an error. -/
theorem scan_tooLarge {source : String} (hne : source ≠ "") (h : ∀ c ∈ source.toList, c.isDigit)
    (hlarge : UInt64.size ≤ Nat.ofDigitChars 10 source.toList 0) :
    scan source = ⟨[], .error (.literalTooLarge source 0)⟩ := by
  obtain ⟨c, digits, hdigits⟩ := List.exists_cons_of_ne_nil (mt String.toList_eq_nil_iff.mp hne)
  have htake : c :: digits.takeWhile Char.isDigit = source.toList := by
    have hrun := (maximalRun_digits h).takeWhile_eq
    rw [List.append_nil, hdigits, List.takeWhile_cons_of_pos (h c (by simp [hdigits]))] at hrun
    rw [hrun, hdigits]
  have hnone : value? (c :: digits.takeWhile Char.isDigit) = none := by
    rw [htake]
    exact value?_eq_none hlarge
  rw [scan, hdigits, scanFrom_tooLarge (h c (by simp [hdigits])) hnone, htake, String.ofList_toList]

end Source

/-! ## Values -/

/-- A feed that starts with an error is not parsed. -/
theorem Parser.whole_lexical {feed : Feed} {cursor : Cursor} {error : LexError}
    (hitem : feed.item cursor.next = some (.error error)) :
    whole feed cursor = (.error (.lexical error), cursor.look) := by
  have hexpression : expression 0 feed cursor = (.error (.lexical error), cursor.look) :=
    bind_error (bind_error (factor_error hitem))
  exact whole_error hexpression

section Digits

variable {digits : String}

/-- Digits whose value is an unsigned word have this value if it is also a signed word, and
overflow if it is not. -/
theorem interpret_digits (hne : digits ≠ "") (h : ∀ c ∈ digits.toList, c.isDigit)
    {value : UInt64} (hvalue : value.toNat = Nat.ofDigitChars 10 digits.toList 0) :
    interpret digits = (exact value.toNat 0).mapError Error.eval := by
  have hreads : Source.Reads 0 digits.toList [⟨.integer value, 0⟩] :=
    .digits (mt String.toList_eq_nil_iff.mp hne) h hvalue 0
  have hexpresses : Source.Expresses digits _ _ _ :=
    .of_reads hreads (Derives.integer value 0).expression_of_factor
  have hevaluate : (Expr.literal (.integer value) 0).evaluate = exact value.toNat 0 := by
    rw [Expr.evaluate_eq, Expr.walk, Walk.outcome_visit, ← Wide.toInt_ofLiteral]
    rfl
  rw [hexpresses.interpret_source (by decide) (by simp [Expr.depth, maxDepth]), hevaluate]

theorem interpret_tooLarge (hne : digits ≠ "") (h : ∀ c ∈ digits.toList, c.isDigit)
    (hlarge : UInt64.size ≤ Nat.ofDigitChars 10 digits.toList 0) :
    interpret digits = .error (.lex (.literalTooLarge digits 0)) := by
  have hitem : (Feed.ofSource digits).item 0 = some (.error (.literalTooLarge digits 0)) := by
    rw [Source.item_ofSource, Source.scan_tooLarge hne h hlarge]
    rfl
  have hparse : parse (.ofSource digits) = .error (.lexical (.literalTooLarge digits 0)) := by
    rw [parse, parseFrom, Parser.whole_lexical hitem]
  exact interpret_eq_lex.mpr hparse

end Digits

/-- A numeral is an expression of the decimal form of its word. -/
theorem Source.exists_expresses_numeral (word : Int64) (zeros : Nat) :
    ∃ lexemes nest place, Expresses (numeral zeros word.toInt) lexemes
      (Expr.decimal word 0 place) nest ∧ nest ≤ 1 := by
  let value : UInt64 := .ofNat word.toInt.natAbs
  have hvalue : value.toNat = Nat.ofDigitChars 10 (zeroed zeros word.toInt.natAbs) 0 := by
    have hwide := Expr.toInt_ofLiteral_natAbs word
    rw [Wide.toInt_ofLiteral] at hwide
    rw [ofDigitChars_zeroed]
    exact Int.ofNat.inj hwide
  have hdigits (offset : Nat) : Reads offset (zeroed zeros word.toInt.natAbs)
      [⟨.integer value, offset⟩] :=
    .digits (zeroed_ne_nil _ _) isDigit_of_mem_zeroed hvalue offset
  have htext := toList_numeral zeros word.toInt
  by_cases hneg : word.toInt < 0
  · -- The digits stand behind the sign.
    have hsign : Reads 0 ['-'] [⟨.minus, 0⟩] := .mark (by decide)
    have hreads := hsign.append (hdigits _) (@Cut.of_last '-' [] _ Bool.false_ne_true)
    have htree : Expr.decimal word 0 1 = .unary .minus (.literal (.integer value) 1) 0 :=
      if_pos hneg
    have hderives : Derives .factor [⟨.minus, 0⟩, ⟨.integer value, 1⟩]
        (.unary .minus (.literal (.integer value) 1) 0) 1 := .sign rfl (.integer value 1)
    rw [if_pos hneg] at htext
    rw [← htext] at hreads
    rw [← htree] at hderives
    exact ⟨_, 1, 1, .of_reads hreads hderives.expression_of_factor, Nat.le_refl 1⟩
  · have htree : Expr.decimal word 0 0 = .literal (.integer value) 0 := if_neg hneg
    have hreads := hdigits 0
    have hderives := Derives.integer value 0
    rw [if_neg hneg, List.nil_append] at htext
    rw [← htext] at hreads
    rw [← htree] at hderives
    exact ⟨_, 0, 0, .of_reads hreads hderives.expression_of_factor, Nat.zero_le 1⟩

theorem Expr.depth_decimal_le (word : Int64) (sign place : Nat) :
    (decimal word sign place).depth ≤ 2 := by
  unfold decimal
  split <;> simp [depth]

/-- Every value is read back from its decimal text, with any number of zeros in front of the
digits, and so from the text in which it is printed. Digits alone have their value up to the
largest word; beyond, they overflow if 64 bits hold them, and if not they are no integer. -/
theorem interpret_numeral :
    (∀ (word : Int64) (zeros : Nat), interpret (numeral zeros word.toInt) = .ok word) ∧
      (∀ (source : String) (word : Int64), interpret source = .ok word →
        interpret (toString word.toInt) = .ok word) ∧
      ∀ (digits : String) (value : Nat), digits ≠ "" → (∀ c ∈ digits.toList, c.isDigit) →
        Nat.ofDigitChars 10 digits.toList 0 = value →
        (value ≤ 2 ^ 63 - 1 → ∃ word : Int64, interpret digits = .ok word ∧ word.toInt = value) ∧
        (2 ^ 63 ≤ value → value ≤ 2 ^ 64 - 1 →
          interpret digits = .error (.eval (.overflow 0))) ∧
        (2 ^ 64 ≤ value → interpret digits = .error (.lex (.literalTooLarge digits 0))) := by
  have hnumeral (word : Int64) (zeros : Nat) :
      interpret (numeral zeros word.toInt) = .ok word := by
    obtain ⟨lexemes, nest, place, hexpresses, hnest⟩ :=
      Source.exists_expresses_numeral word zeros
    have hdepth := Expr.depth_decimal_le word 0 place
    rw [hexpresses.interpret_source (Nat.le_trans hnest (by decide))
      (Nat.le_trans hdepth (by decide)), Expr.evaluate_decimal]
    rfl
  refine ⟨hnumeral, ?_, ?_⟩
  · intro source word _
    rw [← numeral_zero]
    exact hnumeral word 0
  · intro digits value hne hdigits hvalue
    have hword (hsmall : value < UInt64.size) :
        interpret digits = (exact value 0).mapError Error.eval := by
      have hnat : (UInt64.ofNatLT value hsmall).toNat = value := UInt64.toNat_ofNatLT
      have hall := interpret_digits hne hdigits (hnat.trans hvalue.symm)
      rwa [hnat] at hall
    refine ⟨?_, ?_, ?_⟩
    · intro hsmall
      have hfits : Fits value := fits_iff.mpr (by omega)
      refine ⟨.ofInt value, ?_, toInt_ofInt_of_fits hfits⟩
      rw [hword (by rw [UInt64.size]; omega), exact, if_pos hfits]
      rfl
    · intro hlarge hsmall
      have hfits : ¬ Fits value := by
        rw [fits_iff]
        omega
      rw [hword (by rw [UInt64.size]; omega), exact_of_not_fits hfits]
      rfl
    · intro hlarge
      exact interpret_tooLarge hne hdigits (hvalue ▸ hlarge)

/-- The least word, its digits alone, and the first run of digits that is too large. -/
theorem interpret_numeral_ends :
    interpret "-0009223372036854775808" = .ok Int64.minValue ∧
      interpret "-9223372036854775808" = .ok Int64.minValue ∧
      (∃ word : Int64, interpret "009223372036854775807" = .ok word ∧
        word.toInt = 9223372036854775807) ∧
      interpret "9223372036854775808" = .error (.eval (.overflow 0)) ∧
      interpret "018446744073709551616" =
        .error (.lex (.literalTooLarge "018446744073709551616" 0)) := by
  obtain ⟨hnumeral, hprinted, hdigits⟩ := interpret_numeral
  have hzeros : numeral 3 Int64.minValue.toInt = "-0009223372036854775808" := by decide
  have hplain : toString Int64.minValue.toInt = "-9223372036854775808" := by decide
  have hleast : interpret "-0009223372036854775808" = .ok Int64.minValue :=
    hzeros ▸ hnumeral Int64.minValue 3
  obtain ⟨hlargest, -, -⟩ := hdigits "009223372036854775807" 9223372036854775807
    (by decide) (by simp) (by decide)
  obtain ⟨-, hoverflow, -⟩ := hdigits "9223372036854775808" 9223372036854775808
    (by decide) (by simp) (by decide)
  obtain ⟨-, -, htooLarge⟩ := hdigits "018446744073709551616" 18446744073709551616
    (by decide) (by simp) (by decide)
  exact ⟨hleast, hplain ▸ hprinted _ _ hleast, hlargest (by decide),
    hoverflow (by decide) (by decide), htooLarge (by decide)⟩

end Abacus
