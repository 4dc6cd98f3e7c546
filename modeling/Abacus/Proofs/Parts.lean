import Abacus.Proofs.Decomposition
import Abacus.Proofs.Whitespace

/-!
# Parts of a text

Characters that are read to their end by themselves, and what they give inside a longer text.

* `Source.Reads` — characters that are read to their end, at any place of a text.
* `Source.Reads.append` — two such parts, one after the other, if no integer goes across
  the cut; the lemmas on `Source.Cut` say when none does.
* `Source.Reads.blanks`, `Source.Reads.mark`, `Source.Reads.literal` — the smallest parts.
* `Source.Reads.shift` — a part that stands further back.
-/

namespace Abacus

/-- The text of an integer is its decimal digits. -/
theorem Token.toList_literal_integer (value : UInt64) :
    (integer value).literal.toList = Nat.toDigits 10 value.toNat := by
  rw [literal, Nat.toString_eq_ofList_toDigits, String.toList_ofList]

namespace Source

open Text (byteLength)

/-- Characters at byte `offset` of a text that are read to their end as the lexemes. -/
def Reads (offset : Nat) (cs : List Char) (lexemes : List Lexeme) : Prop :=
  scanFrom offset cs = ⟨lexemes, .ok ⟨.eof, offset + byteLength cs⟩⟩

/-! ## Cuts -/

section

variable {c : Char} {firsts lasts : List Char}

theorem Cut.of_last (h : ¬ c.isDigit) : Cut (firsts ++ [c]) lasts := by
  rintro ⟨⟨d, hd, hdigit⟩, -⟩
  obtain rfl : c = d := by simpa using hd
  exact h hdigit

theorem Cut.of_first (h : ¬ c.isDigit) : Cut firsts (c :: lasts) := by
  rintro ⟨-, d, hd, hdigit⟩
  obtain rfl : c = d := by simpa using hd
  exact h hdigit

/-- No integer goes on behind a text that ends with a blank. -/
theorem Cut.of_blank_last (h : ∀ c ∈ firsts.getLast?, c ∈ separators) : Cut firsts lasts := by
  rintro ⟨⟨c, hc, hdigit⟩, -⟩
  exact not_mem_separators_of_isDigit hdigit (h c hc)

/-- No integer goes on in a text that starts with a blank. -/
theorem Cut.of_blank_first (h : ∀ c ∈ lasts.head?, c ∈ separators) : Cut firsts lasts := by
  rintro ⟨-, c, hc, hdigit⟩
  exact not_mem_separators_of_isDigit hdigit (h c hc)

end

/-! ## The smallest parts -/

/-- A token is spelled by its literal if no other digits stand next to it. -/
theorem spells_literal {before after : List Char} {token : Token} (heof : token ≠ .eof)
    (hbefore : ∀ c ∈ before.getLast?, ¬ c.isDigit) (hafter : ∀ c ∈ after.head?, ¬ c.isDigit) :
    Spells before after token.literal.toList token := by
  cases token with
  | integer value =>
    rw [Token.toList_literal_integer]
    refine .integer Nat.toDigits_ne_nil ⟨?_, hbefore, hafter⟩ ?_
    · intro c hc
      exact Nat.isDigit_of_mem_toDigits (by decide) (by decide) hc
    · rw [Nat.ofDigitChars_ten_toDigits]
  | eof => exact absurd rfl heof
  | _ => exact .mark (by decide)

theorem literal_ne_nil {token : Token} (heof : token ≠ .eof) : token.literal.toList ≠ [] := by
  have hspells : Spells [] [] token.literal.toList token :=
    spells_literal heof (by simp) (by simp)
  exact hspells.ne_nil

/-- The text of a token that stands alone is read as the token. -/
theorem Spells.reads {before lexeme : List Char} {token : Token}
    (h : Spells before [] lexeme token) (offset : Nat) : Reads offset lexeme [⟨token, offset⟩] := by
  have hscan := h.scanFrom offset
  rwa [List.append_nil, scanFrom_nil] at hscan

namespace Reads

variable {offset : Nat} {c : Char} {firsts lasts cs : List Char} {token : Token}
  {lexemes firstLexemes lastLexemes : List Lexeme}

theorem nil : Reads offset [] [] := scanFrom_nil

theorem blanks (h : ∀ c ∈ cs, c ∈ separators) : Reads offset cs [] := by
  have hscan : scanFrom offset (cs ++ []) = scanFrom (offset + byteLength cs) [] :=
    scanFrom_blanks h
  rwa [List.append_nil, scanFrom_nil] at hscan

theorem mark (h : (c, token) ∈ marks) : Reads offset [c] [⟨token, offset⟩] := by
  have hspells : Spells [] [] [c] token := .mark h
  exact hspells.reads offset

theorem literal (heof : token ≠ .eof) : Reads offset token.literal.toList [⟨token, offset⟩] := by
  have hspells : Spells [] [] token.literal.toList token :=
    spells_literal heof (by simp) (by simp)
  exact hspells.reads offset

/-! ## Longer parts -/

/-- Two parts of a text are read one after the other. -/
theorem append (hfirst : Reads offset firsts firstLexemes)
    (hlast : Reads (offset + byteLength firsts) lasts lastLexemes) (hcut : Cut firsts lasts) :
    Reads offset (firsts ++ lasts) (firstLexemes ++ lastLexemes) := by
  rw [Reads, scanFrom_append offset firsts hcut, hfirst, hlast, Text.byteLength_append,
    ← Nat.add_assoc]
  rfl

/-- What is read at the start of a text is read further back as well. -/
theorem shift (h : Reads 0 cs lexemes) (offset : Nat) :
    Reads offset cs (lexemes.map (Lexeme.relocate (offset + ·))) := by
  have hshift : scanFrom (0 + offset) cs = (scanFrom 0 cs).relocate (offset + ·) :=
    scanFrom_shift 0 cs fun p _ => Nat.add_comm offset p
  rw [Nat.zero_add] at hshift
  rw [Reads, hshift, h, Nat.zero_add]
  rfl

end Reads

end Source

end Abacus
