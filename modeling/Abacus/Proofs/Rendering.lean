import Mathlib.Data.List.Chain
import Abacus.Proofs.Interpretation
import Abacus.Proofs.Parts

/-!
# Tokens written and read again

Texts that are put together from tokens, with blanks before, between and after them or
without any.

* `Token.written`, `Token.render` — the text of some tokens, each with a text after it.
* `Token.Legible` — there is nothing in it but blanks and tokens, and a blank at least
  between two integers.
* `Token.places` — where the tokens stand in it.
* `Token.Legible.cut` — no integer goes on behind its token and the blanks after it.
* `Token.Legible.reads` — so the text is read token by token.
* `Feed.ofSource_render` — its feed gives the tokens, and then the end of the input for ever.
-/

namespace Abacus

namespace Token

/-! ## Texts -/

/-- Tokens one after another, each with the text that stands after it. -/
def written (words : List (Token × String)) : String :=
  String.join (words.map fun word => word.1.literal ++ word.2)

/-- Tokens with the text that stands after each of them, behind the text `front`. -/
def render (front : String) (words : List (Token × String)) : String := front ++ written words

/-- Tokens with nothing but blanks after them, and not without a blank where two integers
would run together. -/
structure Legible (words : List (Token × String)) : Prop where
  ne_eof : ∀ word ∈ words, word.1 ≠ .eof
  blank : ∀ word ∈ words, ∀ c ∈ word.2.toList, c ∈ Source.separators
  apart : words.IsChain fun word next =>
    word.1.kind = .integer → next.1.kind = .integer → word.2 ≠ ""

/-- The tokens with the byte offsets of their texts behind `front`. -/
def places (front : String) (words : List (Token × String)) : List Lexeme :=
  words.mapIdx fun n word => ⟨word.1, (render front (words.take n)).utf8ByteSize⟩

variable {front : String} {word next : Token × String} {words : List (Token × String)}

@[simp] theorem written_cons :
    written (word :: words) = word.1.literal ++ word.2 ++ written words := by
  rw [written, List.map_cons, String.join_cons, written]

@[simp] theorem written_append (firsts lasts : List (Token × String)) :
    written (firsts ++ lasts) = written firsts ++ written lasts := by
  rw [written, List.map_append, String.join_append, written, written]

@[simp] theorem render_nil : render front [] = front := String.append_empty

/-- A token belongs to what stands in front of the next one. -/
theorem render_cons :
    render front (word :: words) = render (front ++ (word.1.literal ++ word.2)) words := by
  simp only [render, written_cons, String.append_assoc]

theorem places_cons :
    places front (word :: words) =
      ⟨word.1, front.utf8ByteSize⟩ :: places (front ++ (word.1.literal ++ word.2)) words := by
  simp only [places, List.mapIdx_cons, List.take_zero, render_nil, List.take_succ_cons, render_cons]

/-- In front of a token stands the text of those before it. -/
theorem exists_render_eq (front : String) {n : Nat} (h : words[n]? = some word) :
    ∃ back, render front words = render front (words.take n) ++ word.1.literal ++ back := by
  obtain ⟨hn, rfl⟩ := List.getElem?_eq_some_iff.mp h
  have hcut : words = words.take n ++ words[n] :: words.drop (n + 1) := by
    rw [← List.drop_eq_getElem_cons hn, List.take_append_drop]
  have htext : written words = written (words.take n) ++
      (words[n].1.literal ++ words[n].2 ++ written (words.drop (n + 1))) := by
    rw [← written_cons, ← written_append, ← hcut]
  refine ⟨words[n].2 ++ written (words.drop (n + 1)), ?_⟩
  rw [render, htext, render]
  simp only [String.append_assoc]

/-- Digits are in the texts of integers only. -/
theorem kind_of_isDigit {token : Token} {c : Char} (hc : c ∈ token.literal.toList)
    (hdigit : c.isDigit) : token.kind = .integer := by
  cases token with
  | integer => rfl
  | eof => cases hc
  | _ =>
    obtain rfl := List.mem_singleton.mp hc
    cases hdigit

/-! ## Reading -/

namespace Legible

open Source (Cut Reads)

theorem tail (h : Legible (word :: words)) : Legible words where
  ne_eof other hother := h.ne_eof other (List.mem_cons_of_mem _ hother)
  blank other hother := h.blank other (List.mem_cons_of_mem _ hother)
  apart := h.apart.of_cons

/-- The text of some tokens starts with the text of the first. -/
theorem mem_literal_of_head? (h : Legible (word :: words)) {c : Char}
    (hc : c ∈ (written (word :: words)).toList.head?) :
    c ∈ word.1.literal.toList := by
  have hliteral : word.1.literal.toList ≠ [] :=
    Source.literal_ne_nil (h.ne_eof word (List.mem_cons_self ..))
  rw [written_cons, String.toList_append, String.toList_append, List.append_assoc,
    List.head?_append_of_ne_nil _ hliteral] at hc
  exact List.mem_of_mem_head? hc

/-- No integer goes across the end of the blanks after a token: if there are none, then the
token or the next one is no integer. -/
theorem cut (h : Legible (word :: words)) :
    Cut (word.1.literal ++ word.2).toList (written words).toList := by
  by_cases hempty : word.2 = ""
  · rw [hempty, String.append_empty]
    rintro ⟨⟨c, hc, hdigit⟩, d, hd, hdigit'⟩
    cases words with
    | nil => cases hd
    | cons next words =>
      have happart := (List.isChain_cons_cons.mp h.apart).1
      have hword := kind_of_isDigit (List.mem_of_mem_getLast? hc) hdigit
      have hnext := kind_of_isDigit (h.tail.mem_literal_of_head? hd) hdigit'
      exact happart hword hnext hempty
  · apply Cut.of_blank_last
    intro c hc
    rw [String.toList_append,
      List.getLast?_append_of_ne_nil _ (mt String.toList_eq_nil_iff.mp hempty)] at hc
    exact h.blank word (List.mem_cons_self ..) c (List.mem_of_mem_getLast? hc)

/-- A token with its blanks is read as the token. -/
theorem reads_word (h : Legible (word :: words)) (offset : Nat) :
    Reads offset (word.1.literal ++ word.2).toList [⟨word.1, offset⟩] := by
  have hblank := h.blank word (List.mem_cons_self ..)
  have hcut : Cut word.1.literal.toList word.2.toList := by
    apply Cut.of_blank_first
    intro c hc
    exact hblank c (List.mem_of_mem_head? hc)
  rw [String.toList_append]
  exact (Reads.literal (h.ne_eof word (List.mem_cons_self ..))).append (.blanks hblank) hcut

/-- Tokens with blanks between them are read one after another. -/
theorem reads (h : Legible words) (front : String) :
    Reads front.utf8ByteSize (written words).toList (places front words) := by
  induction words generalizing front with
  | nil => exact .nil
  | cons word words ih =>
    have hrest := ih h.tail (front ++ (word.1.literal ++ word.2))
    rw [String.utf8ByteSize_append, ← Text.byteLength_toList (word.1.literal ++ word.2)] at hrest
    have hall := (h.reads_word front.utf8ByteSize).append hrest h.cut
    rw [written_cons, String.toList_append, places_cons]
    exact hall

/-- The whole text is read as the tokens and the end of the input. -/
theorem scan_render (h : Legible words) {front : String}
    (hfront : ∀ c ∈ front.toList, c ∈ Source.separators) :
    Source.scan (render front words) =
      ⟨places front words, .ok ⟨.eof, (render front words).utf8ByteSize⟩⟩ := by
  have hcut : Cut front.toList (written words).toList := by
    apply Cut.of_blank_last
    intro c hc
    exact hfront c (List.mem_of_mem_getLast? hc)
  have hrest := h.reads front
  rw [← Text.byteLength_toList, ← Nat.zero_add (Text.byteLength front.toList)] at hrest
  have hall := (Reads.blanks hfront).append hrest hcut
  rw [← String.toList_append, ← render, List.nil_append, Reads, Nat.zero_add,
    Text.byteLength_toList] at hall
  exact hall

end Legible

end Token

/-- Tokens that are written with blanks before, between and after them, or with none where no
two integers meet, are read as the same tokens, each at the place of its text, and after
them comes the end of the input for ever. -/
theorem Feed.ofSource_render {front : String} {words : List (Token × String)}
    (hfront : ∀ c ∈ front.toList, c ∈ Source.separators) (hwords : Token.Legible words) :
    (∀ n word, words[n]? = some word →
      ∃ back, Token.render front words =
          Token.render front (words.take n) ++ word.1.literal ++ back ∧
        (Feed.ofSource (Token.render front words)).item n =
          some (.ok ⟨word.1, (Token.render front (words.take n)).utf8ByteSize⟩)) ∧
    ∀ n, words.length ≤ n →
      (Feed.ofSource (Token.render front words)).item n =
        some (.ok ⟨.eof, (Token.render front words).utf8ByteSize⟩) := by
  have hscan := hwords.scan_render hfront
  constructor
  · intro n word hword
    obtain ⟨back, htext⟩ := Token.exists_render_eq front hword
    refine ⟨back, htext, ?_⟩
    rw [Source.item_ofSource, hscan, Source.Reading.item, Token.places, List.getElem?_mapIdx, hword]
    rfl
  · intro n hn
    rw [Source.item_ofSource, hscan, Source.Reading.item, Token.places, List.getElem?_mapIdx,
      List.getElem?_eq_none hn]
    rfl

/-- The largest integer behind a form feed, two integers with a line break between them, and
nothing between all others. -/
theorem Feed.ofSource_render_line_break :
    let words : List (Token × String) :=
      [(.integer 18446744073709551615, ""), (.lparen, ""), (.integer 7, "\r\n"),
        (.integer 0, ""), (.divide, "\t")]
    Token.render "\x0c" words = "\x0c18446744073709551615(7\r\n0/\t" ∧
      (∀ c ∈ "\x0c".toList, c ∈ Source.separators) ∧ Token.Legible words ∧
      (Feed.ofSource "\x0c18446744073709551615(7\r\n0/\t").item 3 =
        some (.ok ⟨.integer 0, 25⟩) ∧
      (Feed.ofSource "\x0c18446744073709551615(7\r\n0/\t").item 5 = some (.ok ⟨.eof, 28⟩) := by
  intro words
  have htext : Token.render "\x0c" words = "\x0c18446744073709551615(7\r\n0/\t" := by decide
  have hfront : ∀ c ∈ "\x0c".toList, c ∈ Source.separators := by simp [Source.separators]
  have hwords : Token.Legible words := by
    constructor
    · simp [words]
    · simp [words, Source.separators]
    · simp [words, Token.kind]
  obtain ⟨htokens, hend⟩ := Feed.ofSource_render hfront hwords
  obtain ⟨-, -, hzero⟩ := htokens 3 (.integer 0, "") rfl
  refine ⟨htext, hfront, hwords, ?_, ?_⟩
  · rw [← htext, hzero]
    decide
  · rw [← htext, hend 5 (by decide)]
    decide

end Abacus
