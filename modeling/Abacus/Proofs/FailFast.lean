import Mathlib.Tactic.Common
import Abacus.Proofs.Interpretation
import Abacus.Proofs.Lexemes
import Abacus.Proofs.Parser.Consumption
import Abacus.Proofs.Parser.Lookahead

/-!
# Failing at the first offence

An error depends on the text up to the end of the lexeme it is about.

* `Error.item?` — the item that an error is about.
* `Parser.item_of_error` — the parser stops with that item as the next one.
* `Source.Covers` — the characters of an item: one that is in no token, a run of digits
  or the text of a token.
* `Source.Reading.item_andThen` — two texts with the same first part are read alike up to
  any item that stands in it.
* `interpret_fails_fast` — so whatever comes after the lexeme leaves the error as it is.
-/

namespace Abacus

/-! ## What errors are about -/

/-- The item that the error is about: what was found where something else was expected. -/
def ParseError.item? : ParseError → Option Item
  | .unexpectedToken _ found position => some (.ok ⟨found, position⟩)
  | .unexpectedTrailingTokens found position => some (.ok ⟨found, position⟩)
  | .lexical error => some (.error error)
  | .nestingTooDeep _ | .unexpectedEndOfInput => none

/-- The item of a text that the error is about. -/
def Error.item? : Error → Option Item
  | .lex error => some (.error error)
  | .parse error => error.item?
  | .eval _ => none

theorem Error.item?_ofParseError (error : ParseError) :
    (Error.ofParseError error).item? = error.item? := by
  cases error <;> rfl

/-- A parser that fails over an item leaves it as the next one. -/
theorem Parser.item_of_error {feed : Feed} {start : Nat} {error : ParseError} {final : Cursor}
    {item : Item} (h : parseFrom start feed = (.error error, final))
    (hitem : error.item? = some item) : feed.item final.next = some item := by
  have houtcome := parseFrom_outcome start feed
  rw [h] at houtcome
  cases houtcome with
  | trailing _ _ hnext =>
    cases hitem
    rwa [Cursor.next_look, Cursor.next_use]
  | failed h =>
    obtain ⟨used, -, -, hleaves⟩ := h.consumes
    cases error with
    | unexpectedToken | lexical => exact hleaves.trans hitem
    | unexpectedTrailingTokens => exact hleaves.elim
    | nestingTooDeep | unexpectedEndOfInput => cases hitem

namespace Source

open Text (MaximalRun byteLength)

variable {source : String} {front lexeme after rest : List Char} {n : Nat}

/-- The characters `lexeme`, between `front` and `after`, are those that the item is about:
one character, a whole run of digits, or the text of a token. -/
def Covers (front lexeme after : List Char) : Item → Prop
  | .ok ⟨token, _⟩ => Spells front after lexeme token
  | .error (.unexpectedCharacter character _) => lexeme = [character]
  | .error (.literalTooLarge literal _) =>
    lexeme = literal.toList ∧ lexeme ≠ [] ∧ MaximalRun Char.isDigit front lexeme after

/-- All items but the end of the text have characters. -/
theorem Names.exists_covers {item : Item} (h : Names front rest item)
    (heof : ∀ position, item ≠ .ok ⟨.eof, position⟩) :
    ∃ lexeme after, rest = lexeme ++ after ∧ Covers front lexeme after item := by
  rcases item with error | ⟨token, position⟩
  · cases error with
    | unexpectedCharacter character position =>
      obtain ⟨after, rfl⟩ := List.head?_eq_some_iff.mp h
      exact ⟨[character], after, rfl, rfl⟩
    | literalTooLarge literal position =>
      obtain ⟨after, rfl, hne, hrun⟩ := h
      exact ⟨literal.toList, after, rfl, rfl, hne, hrun⟩
  · rcases h with ⟨lexeme, after, rfl, hspells⟩ | ⟨-, rfl⟩
    · exact ⟨lexeme, after, rfl, hspells⟩
    · exact absurd rfl (heof position)

/-- A digit is never unexpected. -/
theorem not_isDigit_of_item {character : Char} {position : Nat}
    (h : (Feed.ofSource source).item n = some (.error (.unexpectedCharacter character position))) :
    ¬ character.isDigit := by
  obtain ⟨d⟩ := Decomposition.exists_of_text source.toList
  rw [d.item_ofSource, Option.some.injEq, Decomposition.item] at h
  split at h
  · cases h
  · unfold stopItem at h
    split at h
    · cases h
    · split at h
      · cases h
      · cases h
        assumption

namespace Covers

variable {item : Item}

theorem ne_nil (h : Covers front lexeme after item) : lexeme ≠ [] := by
  rcases item with error | ⟨token, position⟩
  · cases error with
    | unexpectedCharacter =>
      obtain rfl : lexeme = _ := h
      exact List.cons_ne_nil _ _
    | literalTooLarge => exact h.2.1
  · exact Spells.ne_nil h

/-- The characters of an item are digits if the last one is. -/
theorem isDigit_of_last (h : Covers front lexeme after item) {c : Char}
    (hlast : lexeme.getLast? = some c) (hdigit : c.isDigit) : ∀ d ∈ lexeme, d.isDigit := by
  have hsingle {character : Char} (hlexeme : lexeme = [character]) : ∀ d ∈ lexeme, d.isDigit := by
    subst hlexeme
    obtain rfl : character = c := by simpa using hlast
    simpa using hdigit
  rcases item with error | ⟨token, position⟩
  · cases error with
    | unexpectedCharacter => exact hsingle h
    | literalTooLarge => exact h.2.2.all
  · cases h with
    | mark => exact hsingle rfl
    | integer _ hrun => exact hrun.all

/-- A run of digits ends where no digit follows. -/
theorem not_isDigit_after (h : Covers front lexeme after item)
    (hitem : (Feed.ofSource source).item n = some item) (hdigits : ∀ c ∈ lexeme, c.isDigit) :
    ∀ c ∈ after.head?, ¬ c.isDigit := by
  rcases item with error | ⟨token, position⟩
  · cases error with
    | unexpectedCharacter =>
      obtain rfl : lexeme = _ := h
      exact absurd (hdigits _ (List.mem_singleton.mpr rfl)) (not_isDigit_of_item hitem)
    | literalTooLarge => exact h.2.2.after
  · cases h with
    | mark hmark =>
      exact absurd (hdigits _ (List.mem_singleton.mpr rfl)) (not_isDigit_of_mem_marks hmark)
    | integer _ hrun => exact hrun.after

/-- Whatever comes after the characters of an item, no integer goes across their end unless
they are digits and a digit comes next. -/
theorem cut (h : Covers front lexeme after item)
    (hrest : (∀ c ∈ lexeme, c.isDigit) → ∀ c ∈ rest.head?, ¬ c.isDigit) :
    Cut (front ++ lexeme) rest := by
  rintro ⟨⟨c, hc, hdigit⟩, d, hd, hdigit'⟩
  obtain ⟨last, hlast⟩ := List.getLast?_isSome.mpr h.ne_nil |> Option.isSome_iff_exists.mp
  have hsame : (front ++ lexeme).getLast? = some last := by
    rw [List.getLast?_append, hlast, Option.some_or]
  obtain rfl : last = c := by simpa [hsame] using hc
  exact hrest (h.isDigit_of_last hlast hdigit) d hd hdigit'

end Covers

/-! ## Texts with the same first part -/

namespace Reading

variable {first second other : Reading} {start stop : Nat}

/-- All items stand behind the start of the part that is read. -/
theorem Within.le_itemPosition {reading : Reading} (h : reading.Within start stop)
    (hle : start ≤ stop) (n : Nat) : start ≤ itemPosition (reading.item n) := by
  unfold item
  rcases hlexeme : reading.lexemes[n]? with _ | lexeme
  · rw [Option.map_none, Option.getD_none]
    rcases htail : reading.tail with error | lexeme
    · exact (h.error error htail).1
    · rw [h.eof lexeme htail]
      exact hle
  · exact (h.lexemes lexeme (List.mem_of_getElem? hlexeme)).1

/-- If an item stands in the first part of a text, it and those in front of it do not depend
on the second part. -/
theorem item_andThen (hsecond : ∀ n, start ≤ itemPosition (second.item n)) {n : Nat}
    (hitem : itemPosition ((first.andThen second).item n) < start) {m : Nat} (hle : m ≤ n) :
    (first.andThen other).item m = (first.andThen second).item m := by
  rcases first with ⟨lexemes, error | lexeme⟩
  · rfl
  · have hlt : n < lexemes.length := by
      refine Nat.lt_of_not_le fun hge => ?_
      have hbehind := hsecond (n - lexemes.length)
      simp only [andThen, item, List.getElem?_append_right hge] at hitem
      exact absurd hitem (Nat.not_lt.mpr hbehind)
    have hlt' : m < lexemes.length := Nat.lt_of_le_of_lt hle hlt
    simp only [andThen, item, List.getElem?_append_left hlt', List.getElem?_eq_getElem hlt',
      Option.map_some, Option.getD_some]

end Reading

/-- Two texts with the same first part have the same items up to any that stands in it. -/
theorem item_ofSource_append {firsts after rest : String} {item : Item}
    (hafter : Cut firsts.toList after.toList) (hrest : Cut firsts.toList rest.toList)
    (hitem : (Feed.ofSource (firsts ++ after)).item n = some item)
    (hposition : itemPosition item < firsts.utf8ByteSize) {m : Nat} (hle : m ≤ n) :
    (Feed.ofSource (firsts ++ rest)).item m = (Feed.ofSource (firsts ++ after)).item m := by
  have hscan {lasts : String} (hcut : Cut firsts.toList lasts.toList) :
      scan (firsts ++ lasts) =
        (scanFrom 0 firsts.toList).andThen (scanFrom firsts.utf8ByteSize lasts.toList) := by
    rw [scan, String.toList_append, scanFrom_append 0 _ hcut, Nat.zero_add,
      Text.byteLength_toList]
  rw [item_ofSource, hscan hafter, Option.some.injEq] at hitem
  rw [item_ofSource, item_ofSource, hscan hafter, hscan hrest, Option.some.injEq]
  refine Reading.item_andThen (fun n => ?_) (hitem ▸ hposition) hle
  exact (within_scanFrom _ _).le_itemPosition (Nat.le_add_right _ _) n

end Source

/-! ## Errors of texts -/

namespace Error

open Source (Covers itemPosition)

/-- The characters `lexeme` between `front` and `after` are what the error is about, and
stand at its position. -/
structure IsAbout (error : Error) (front lexeme after : String) : Prop where
  position_eq : error.position = some front.utf8ByteSize
  covers : ∃ item, error.item? = some item ∧
    Covers front.toList lexeme.toList after.toList item

/-- The error is about characters of a text, and not about its end. -/
def HasLexeme (error : Error) : Prop :=
  ∃ item, error.item? = some item ∧ ∀ position, item ≠ .ok ⟨.eof, position⟩

theorem position_of_item? {error : Error} {item : Item} (h : error.item? = some item) :
    error.position = some (itemPosition item) := by
  cases error with
  | lex => cases h; rfl
  | parse error => cases error <;> cases h <;> rfl
  | eval => cases h

end Error

/-- An error of a text that is about an item is an error of the parser, which has stopped at
that item. -/
theorem exists_parseFrom_of_item? {source : String} {error : Error} {item : Item}
    (h : interpret source = .error error) (hitem : error.item? = some item) :
    ∃ cause final, parseFrom 0 (.ofSource source) = (.error cause, final) ∧
      error = .ofParseError cause ∧ (Feed.ofSource source).item final.next = some item := by
  rcases interpret_eq_error h with ⟨cause, hparse, rfl⟩ | ⟨tree, cause, -, -, rfl⟩
  · rcases hrun : parseFrom 0 (.ofSource source) with ⟨result, final⟩
    rw [parse, hrun] at hparse
    obtain rfl : result = .error cause := hparse
    rw [Error.item?_ofParseError] at hitem
    exact ⟨cause, final, rfl, rfl, Parser.item_of_error hrun hitem⟩
  · cases hitem

/-- An error that is about characters of a text is about one lexeme there, at its position.
The text may go on after the lexeme in any other way that leaves it whole: the error stays. -/
theorem interpret_fails_fast {source : String} {error : Error} (h : interpret source = .error error)
    (hlexeme : error.HasLexeme) :
    (∃ front lexeme after, source = front ++ lexeme ++ after ∧
      error.IsAbout front lexeme after) ∧
    ∀ front lexeme after rest : String, source = front ++ lexeme ++ after →
      error.IsAbout front lexeme after →
      ((∀ c ∈ lexeme.toList, c.isDigit) → ∀ c ∈ rest.toList.head?, ¬ c.isDigit) →
      interpret (front ++ lexeme ++ rest) = .error error := by
  obtain ⟨item, hitem, heof⟩ := hlexeme
  obtain ⟨cause, final, hrun, rfl, hnext⟩ := exists_parseFrom_of_item? h hitem
  have hposition := Error.position_of_item? hitem
  constructor
  · obtain ⟨front, back, htext, hplace, hnames⟩ := Source.exists_cut hnext
    obtain ⟨lexeme, after, rfl, hcovers⟩ := hnames.exists_covers heof
    refine ⟨.ofList front, .ofList lexeme, .ofList after, ?_, ?_, item, hitem,
      by simpa using hcovers⟩
    · rw [← String.ofList_append, ← String.ofList_append, List.append_assoc, ← htext,
        String.ofList_toList]
    · rw [hposition, hplace, ← Text.byteLength_toList, String.toList_ofList]
  · rintro front lexeme after rest rfl ⟨hplace, other, hother, hcovers⟩ hrest
    obtain rfl : item = other := Option.some.inj (hitem.symm.trans hother)
    have hafter := hcovers.cut (hcovers.not_isDigit_after hnext)
    have hinside : Source.itemPosition item < (front ++ lexeme).utf8ByteSize := by
      have hfront := Option.some.inj (hposition.symm.trans hplace)
      have hsize : 0 < lexeme.utf8ByteSize := by
        rw [← Text.byteLength_toList]
        obtain ⟨c, cs, hcs⟩ := List.exists_cons_of_ne_nil hcovers.ne_nil
        rw [hcs]
        exact Text.byteLength_cons_pos c cs
      rw [String.utf8ByteSize_append]
      omega
    -- The parser has seen nothing behind the lexeme.
    have hsame : parseFrom 0 (.ofSource (front ++ lexeme ++ rest)) = (.error cause, final) := by
      rw [← hrun]
      refine Parser.Built.whole.run_eq fun i hi => ?_
      have hle : i ≤ final.next := by
        rw [← parseFrom, hrun] at hi
        exact hi
      refine Source.item_ofSource_append ?_ ?_ hnext hinside hle
      · rwa [String.toList_append]
      · rw [String.toList_append]
        exact hcovers.cut hrest
    rw [interpret_eq, parse, hsame]

/-- An integer that follows an expression is reported, whether or not the rest can be read. -/
theorem interpret_fails_fast_trailing :
    interpret "2 34)" = .error (.parse (.unexpectedTrailingTokens (.integer 34) 2)) ∧
      interpret "2 34 # 5" = .error (.parse (.unexpectedTrailingTokens (.integer 34) 2)) := by
  have herror : interpret "2 34)" =
      .error (.parse (.unexpectedTrailingTokens (.integer 34) 2)) := by
    decide +kernel
  have hdigits : Text.MaximalRun Char.isDigit "2 ".toList "34".toList ")".toList := by
    constructor <;> simp
  have hspells : Source.Spells "2 ".toList ")".toList "34".toList (.integer 34) :=
    .integer (by decide) hdigits (by decide)
  have hlexeme : (Error.parse (.unexpectedTrailingTokens (.integer 34) 2)).HasLexeme :=
    ⟨.ok ⟨.integer 34, 2⟩, rfl, nofun⟩
  obtain ⟨-, hrest⟩ := interpret_fails_fast herror hlexeme
  exact ⟨herror, hrest "2 " "34" ")" " # 5" rfl ⟨rfl, .ok ⟨.integer 34, 2⟩, rfl, hspells⟩
    (by simp)⟩

end Abacus
