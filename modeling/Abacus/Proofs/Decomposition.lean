import Abacus.Proofs.Scan

/-!
# Texts cut into lexemes

What the parts of a text are, told without reading it from one end to the other.

* `Text.MaximalRun` — characters of one kind, and none of that kind next to them.
* `Source.Spells` — the characters of one token.
* `Source.Stops` — characters that no token can be read from.
* `Source.Decomposition` — a text cut into blanks, lexemes with blanks after
  them, and a rest that stops the reading.
* `Source.Fits.scanFrom` — a text that is cut like this is read like this.
* `Source.exists_fits`, `Source.Fits.unique` — every text can be cut so, and in
  one way only.
* `Feed.ofSource_decomposition` — the feed of a text gives its lexemes, and then
  the end of the text or the error in its rest for ever.
-/

namespace Abacus

/-! ## Runs of characters -/

namespace Text

/-- Between `before` and `after`, the characters `run` have the property `p`, and
the characters on either side have it not. The run may be empty. -/
structure MaximalRun (p : Char → Bool) (before run after : List Char) : Prop where
  all : ∀ c ∈ run, p c
  before : ∀ c ∈ before.getLast?, ¬ p c
  after : ∀ c ∈ after.head?, ¬ p c

variable {p : Char → Bool} {before before' run run' after after' : List Char}

namespace MaximalRun

theorem takeWhile_eq (h : MaximalRun p before run after) : (run ++ after).takeWhile p = run := by
  have hstop : after.takeWhile p = [] := by
    cases after with
    | nil => rfl
    | cons c after => exact List.takeWhile_cons_of_neg (h.after c rfl)
  rw [List.takeWhile_append_of_pos h.all, hstop, List.append_nil]

theorem dropWhile_eq (h : MaximalRun p before run after) : (run ++ after).dropWhile p = after := by
  have hstop : after.dropWhile p = after := by
    cases after with
    | nil => rfl
    | cons c after => exact List.dropWhile_cons_of_neg (h.after c rfl)
  rw [List.dropWhile_append_of_pos h.all, hstop]

/-- There is one way only to cut a longest run off a text. -/
theorem unique (h : MaximalRun p before run after) (h' : MaximalRun p before' run' after')
    (htext : run ++ after = run' ++ after') : run = run' ∧ after = after' := by
  constructor
  · rw [← h.takeWhile_eq, ← h'.takeWhile_eq, htext]
  · rw [← h.dropWhile_eq, ← h'.dropWhile_eq, htext]

/-- A run of some characters has no others. -/
theorem mem {chars : List Char} (h : MaximalRun (· ∈ chars) before run after) :
    ∀ c ∈ run, c ∈ chars := by
  simpa using h.all

end MaximalRun

/-- Every text starts with a longest run. -/
theorem maximalRun_takeWhile (cs : List Char) (hbefore : ∀ c ∈ before.getLast?, ¬ p c) :
    MaximalRun p before (cs.takeWhile p) (cs.dropWhile p) where
  all := List.all_eq_true.mp List.all_takeWhile
  before := hbefore
  after c hc := by
    have hhead := List.head?_dropWhile_not p cs
    rw [Option.mem_def.mp hc] at hhead
    simpa using hhead

end Text

namespace Source

open Text (MaximalRun byteLength)

/-! ## Lexemes and what is none -/

/-- The tokens that are one character each. -/
def marks : List (Char × Token) :=
  [('+', .plus), ('-', .minus), ('*', .times), ('/', .divide), ('(', .lparen), (')', .rparen)]

/-- Between `before` and `after`, the characters of a token: a mark, or a longest
run of digits whose value 64 bits can hold. -/
inductive Spells (before after : List Char) : List Char → Token → Prop where
  | mark {c : Char} {token : Token} (h : (c, token) ∈ marks) : Spells before after [c] token
  | integer {digits : List Char} {value : UInt64} (hne : digits ≠ [])
    (hrun : MaximalRun Char.isDigit before digits after)
    (hvalue : value.toNat = Nat.ofDigitChars 10 digits 0) :
    Spells before after digits (.integer value)

/-- After `before`, characters that start with no token: none at all, a character
that is in no token, or a longest run of digits whose value needs more than 64
bits. -/
inductive Stops (before : List Char) : List Char → Prop where
  | empty : Stops before []
  | unexpected {c : Char} {cs : List Char} (hblank : c ∉ separators)
    (hmark : c ∉ marks.map Prod.fst) (hdigit : ¬ c.isDigit) : Stops before (c :: cs)
  | tooLarge {digits after : List Char} (hne : digits ≠ [])
    (hrun : MaximalRun Char.isDigit before digits after)
    (hvalue : UInt64.size ≤ Nat.ofDigitChars 10 digits 0) : Stops before (digits ++ after)

variable {before before' after after' lexeme lexeme' rest rest' : List Char}
  {token token' : Token} {c : Char} {digits : List Char}

theorem mem_marks_iff : (c, token) ∈ marks ↔ Token.ofChar? c = some token := by
  constructor
  · intro h
    simp only [marks, List.mem_cons, Prod.mk.injEq, List.not_mem_nil, or_false] at h
    rcases h with ⟨rfl, rfl⟩ | ⟨rfl, rfl⟩ | ⟨rfl, rfl⟩ | ⟨rfl, rfl⟩ | ⟨rfl, rfl⟩ | ⟨rfl, rfl⟩ <;>
      rfl
  · intro h
    unfold Token.ofChar? at h
    split at h <;> cases h <;> simp [marks]

theorem not_mem_marks_iff : c ∉ marks.map Prod.fst ↔ Token.ofChar? c = none := by
  rw [Option.eq_none_iff_forall_ne_some]
  simp only [List.mem_map, not_exists, not_and, Prod.forall, mem_marks_iff]
  constructor
  · intro h token htoken
    exact h c token htoken rfl
  · rintro h d token htoken rfl
    exact h token htoken

theorem value?_eq_some {value : UInt64} (h : value.toNat = Nat.ofDigitChars 10 digits 0) :
    value? digits = some value := by
  have hlt : Nat.ofDigitChars 10 digits 0 < UInt64.size := h ▸ value.toNat_lt
  rw [value?, dif_pos hlt, Option.some.injEq, ← UInt64.toNat_inj, UInt64.toNat_ofNatLT, h]

theorem value?_eq_none (h : UInt64.size ≤ Nat.ofDigitChars 10 digits 0) : value? digits = none :=
  dif_neg (Nat.not_lt.mpr h)

/-- A mark is neither blank nor digit. -/
theorem not_mem_separators_of_mem_marks (h : (c, token) ∈ marks) : c ∉ separators := by
  simp only [marks, List.mem_cons, Prod.mk.injEq, List.not_mem_nil, or_false] at h
  rcases h with ⟨rfl, -⟩ | ⟨rfl, -⟩ | ⟨rfl, -⟩ | ⟨rfl, -⟩ | ⟨rfl, -⟩ | ⟨rfl, -⟩ <;>
    simp [separators]

theorem not_isDigit_of_mem_marks (h : (c, token) ∈ marks) : ¬ c.isDigit := by
  intro hdigit
  rw [mem_marks_iff, ofChar?_of_isDigit hdigit] at h
  cases h

namespace Spells

theorem ne_nil (h : Spells before after lexeme token) : lexeme ≠ [] := by
  cases h with
  | mark => exact List.cons_ne_nil _ _
  | integer hne => exact hne

theorem not_mem_separators (h : Spells before after lexeme token) :
    ∀ c ∈ lexeme, c ∉ separators := by
  cases h with
  | mark hmark => simpa using not_mem_separators_of_mem_marks hmark
  | integer _ hrun => exact fun c hc => not_mem_separators_of_isDigit (hrun.all c hc)

/-- No digits of one integer stand on both sides of the end of a lexeme. -/
theorem cut (h : Spells before after lexeme token) : Cut (before ++ lexeme) after := by
  rintro ⟨⟨c, hc, hdigit⟩, d, hd, hdigit'⟩
  cases h with
  | mark hmark =>
    obtain rfl : _ = c := by simpa using hc
    exact not_isDigit_of_mem_marks hmark hdigit
  | integer _ hrun => exact hrun.after d hd hdigit'

/-- A text starts with one lexeme at most. -/
theorem unique (h : Spells before after lexeme token) (h' : Spells before' after' lexeme' token')
    (htext : lexeme ++ after = lexeme' ++ after') :
    lexeme = lexeme' ∧ token = token' ∧ after = after' := by
  cases h with
  | mark hmark =>
    cases h' with
    | mark hmark' =>
      obtain ⟨rfl, rfl⟩ : _ = _ ∧ after = after' := by simpa using htext
      rw [mem_marks_iff] at hmark hmark'
      exact ⟨rfl, Option.some.inj (hmark.symm.trans hmark'), rfl⟩
    | integer hne hrun =>
      rcases List.exists_cons_of_ne_nil hne with ⟨d, digits, rfl⟩
      obtain ⟨rfl, -⟩ : _ = d ∧ _ := by simpa using htext
      exact absurd (hrun.all _ (by simp)) (not_isDigit_of_mem_marks hmark)
  | integer hne hrun hvalue =>
    cases h' with
    | mark hmark =>
      rcases List.exists_cons_of_ne_nil hne with ⟨d, digits, rfl⟩
      obtain ⟨rfl, -⟩ : d = _ ∧ _ := by simpa using htext
      exact absurd (hrun.all _ (by simp)) (not_isDigit_of_mem_marks hmark)
    | integer _ hrun' hvalue' =>
      rcases hrun.unique hrun' htext with ⟨rfl, rfl⟩
      rw [← hvalue', UInt64.toNat_inj] at hvalue
      exact ⟨rfl, congrArg Token.integer hvalue, rfl⟩

/-- What starts with a lexeme does not stop the reading. -/
theorem ne_of_stops (h : Spells before after lexeme token) (hstops : Stops before' rest) :
    rest ≠ lexeme ++ after := by
  intro htext
  rcases List.exists_cons_of_ne_nil h.ne_nil with ⟨c, cs, rfl⟩
  cases hstops with
  | empty => cases htext
  | unexpected _ hmark hdigit =>
    rcases List.cons.inj htext with ⟨rfl, -⟩
    cases h with
    | mark h => exact hmark (List.mem_map_of_mem h)
    | integer _ hrun => exact hdigit (hrun.all _ (by simp))
  | tooLarge hne hrun hlarge =>
    cases h with
    | mark hmark =>
      rcases List.exists_cons_of_ne_nil hne with ⟨d, digits, rfl⟩
      rcases List.cons.inj htext with ⟨rfl, -⟩
      exact not_isDigit_of_mem_marks hmark (hrun.all _ (by simp))
    | @integer _ value _ hrun' hvalue =>
      rcases hrun.unique hrun' htext with ⟨rfl, -⟩
      have := value.toNat_lt_size
      omega

/-- A lexeme is read as its token. -/
theorem scanFrom (h : Spells before after lexeme token) (offset : Nat) :
    scanFrom offset (lexeme ++ after) =
      (Source.scanFrom (offset + byteLength lexeme) after).cons ⟨token, offset⟩ := by
  cases h with
  | mark hmark =>
    exact scanFrom_token (not_mem_separators_of_mem_marks hmark) (mem_marks_iff.mp hmark)
  | integer hne hrun hvalue =>
    rcases List.exists_cons_of_ne_nil hne with ⟨d, digits, rfl⟩
    have hdigit : d.isDigit := hrun.all d (by simp)
    have htake := hrun.takeWhile_eq
    have hdrop := hrun.dropWhile_eq
    rw [List.cons_append, List.takeWhile_cons_of_pos hdigit] at htake
    rw [List.cons_append, List.dropWhile_cons_of_pos hdigit] at hdrop
    rw [List.cons_append, scanFrom_integer hdigit (htake ▸ value?_eq_some hvalue), htake, hdrop]

end Spells

/-- What every pull gives where the characters `rest` stop the reading at byte
`offset`: the end of the text, or the first character or run of digits. -/
def stopItem (offset : Nat) : List Char → Item
  | [] => .ok ⟨.eof, offset⟩
  | c :: cs =>
    if c.isDigit then
      .error (.literalTooLarge (String.ofList ((c :: cs).takeWhile Char.isDigit)) offset)
    else
      .error (.unexpectedCharacter c offset)

theorem Stops.scanFrom (h : Stops before rest) (offset : Nat) :
    scanFrom offset rest = ⟨[], stopItem offset rest⟩ := by
  cases h with
  | empty => exact scanFrom_nil
  | unexpected hblank hmark hdigit =>
    rw [stopItem, if_neg hdigit, scanFrom_unexpected hblank (not_mem_marks_iff.mp hmark) hdigit]
  | tooLarge hne hrun hvalue =>
    rcases List.exists_cons_of_ne_nil hne with ⟨d, digits, rfl⟩
    have hdigit : d.isDigit := hrun.all d (by simp)
    have htake := hrun.takeWhile_eq
    rw [List.cons_append, List.takeWhile_cons_of_pos hdigit] at htake
    rw [List.cons_append, stopItem, if_pos hdigit, List.takeWhile_cons_of_pos hdigit,
      scanFrom_tooLarge hdigit (htake ▸ value?_eq_none hvalue)]

/-! ## Cutting a text -/

/-- A lexeme, the token it spells and the blanks after it. -/
structure Piece where
  lexeme : List Char
  token : Token
  blanks : List Char

/-- The text of some pieces, one after another. -/
def textOf (pieces : List Piece) : List Char :=
  pieces.flatMap fun piece => piece.lexeme ++ piece.blanks

/-- After `before` and in front of `rest`, each lexeme of the pieces spells its
token, the blanks after it are as many as can be, and the rest stops the reading. -/
inductive Fits (rest : List Char) : List Char → List Piece → Prop where
  | stop {before : List Char} (h : Stops before rest) : Fits rest before []
  | piece {before : List Char} {piece : Piece} {pieces : List Piece}
    (hlexeme : Spells before (piece.blanks ++ (textOf pieces ++ rest)) piece.lexeme piece.token)
    (hblanks : MaximalRun (· ∈ separators) (before ++ piece.lexeme) piece.blanks
      (textOf pieces ++ rest))
    (hafter : Fits rest (before ++ piece.lexeme ++ piece.blanks) pieces) :
    Fits rest before (piece :: pieces)

/-- A text cut into blanks, lexemes with blanks after them, and a rest. -/
structure Decomposition (text : List Char) where
  blanks : List Char
  pieces : List Piece
  rest : List Char
  text_eq : blanks ++ (textOf pieces ++ rest) = text
  blanks_maximal : MaximalRun (· ∈ separators) [] blanks (textOf pieces ++ rest)
  fits : Fits rest blanks pieces

/-- The tokens of the pieces, the first of which starts at byte `offset`. -/
def lexemesOf (offset : Nat) (pieces : List Piece) : List Lexeme :=
  pieces.mapIdx fun n piece => ⟨piece.token, offset + byteLength (textOf (pieces.take n))⟩

@[simp] theorem textOf_nil : textOf [] = [] := rfl

@[simp] theorem textOf_cons (piece : Piece) (pieces : List Piece) :
    textOf (piece :: pieces) = piece.lexeme ++ (piece.blanks ++ textOf pieces) := by
  simp [textOf]

@[simp] theorem lexemesOf_nil (offset : Nat) : lexemesOf offset [] = [] := rfl

theorem lexemesOf_cons (offset : Nat) (piece : Piece) (pieces : List Piece) :
    lexemesOf offset (piece :: pieces) =
      ⟨piece.token, offset⟩ ::
        lexemesOf (offset + byteLength piece.lexeme + byteLength piece.blanks) pieces := by
  simp [lexemesOf, List.mapIdx_cons, Nat.add_assoc]

variable {pieces pieces' : List Piece}

/-- A text cut into pieces is read as their tokens and what stops it. -/
theorem Fits.scanFrom (h : Fits rest before pieces) (offset : Nat) :
    scanFrom offset (textOf pieces ++ rest) =
      ⟨lexemesOf offset pieces, stopItem (offset + byteLength (textOf pieces)) rest⟩ := by
  induction h generalizing offset with
  | stop hstops => exact hstops.scanFrom offset
  | @piece before piece pieces hlexeme hblanks _ ih =>
    rw [textOf_cons, List.append_assoc, List.append_assoc, hlexeme.scanFrom,
      scanFrom_blanks hblanks.mem, ih, lexemesOf_cons]
    simp only [Reading.cons, Text.byteLength_append, Nat.add_assoc]

/-- A text is cut into pieces in one way only. -/
theorem Fits.unique (h : Fits rest before pieces) (h' : Fits rest' before' pieces')
    (htext : textOf pieces ++ rest = textOf pieces' ++ rest') :
    pieces = pieces' ∧ rest = rest' := by
  induction h generalizing before' pieces' with
  | stop hstops =>
    cases h' with
    | stop => exact ⟨rfl, htext⟩
    | piece hlexeme => exact absurd (by simpa using htext) (hlexeme.ne_of_stops hstops)
  | @piece before piece pieces hlexeme hblanks _ ih =>
    cases h' with
    | stop hstops => exact absurd (by simpa using htext.symm) (hlexeme.ne_of_stops hstops)
    | @piece _ piece' pieces' hlexeme' hblanks' hafter' =>
      simp only [textOf_cons, List.append_assoc] at htext
      rcases hlexeme.unique hlexeme' htext with ⟨hsame, htoken, hnext⟩
      rcases hblanks.unique hblanks' hnext with ⟨hsame', hnext'⟩
      rcases ih hafter' hnext' with ⟨rfl, hrest⟩
      have hpiece : piece = piece' := by
        cases piece
        cases piece'
        simp_all
      exact ⟨by rw [hpiece], hrest⟩

/-- If no integer goes across blanks together with what stands in front of them,
none goes across their end. -/
theorem Cut.of_blanks {blanks : List Char} (h : Cut before (blanks ++ after))
    (hblanks : ∀ c ∈ blanks, c ∈ separators) : Cut (before ++ blanks) after := by
  rcases List.eq_nil_or_concat blanks with rfl | ⟨front, c, rfl⟩
  · simpa using h
  · -- In front of the end stands a blank.
    rintro ⟨⟨d, hd, hdigit⟩, -⟩
    obtain rfl : c = d := by simpa [← List.append_assoc] using hd
    exact not_mem_separators_of_isDigit hdigit (hblanks c (by simp))

/-- If what comes after a lexeme and its blanks can be cut into pieces, then so can the text that
starts with the lexeme. -/
theorem Spells.exists_fits (h : Spells before after lexeme token)
    (hnext : ∃ pieces rest, textOf pieces ++ rest = after.dropWhile (· ∈ separators) ∧
      Fits rest (before ++ lexeme ++ after.takeWhile (· ∈ separators)) pieces) :
    ∃ pieces rest, textOf pieces ++ rest = lexeme ++ after ∧ Fits rest before pieces := by
  rcases hnext with ⟨pieces, rest, htext, hfits⟩
  have hlast : ∀ c ∈ (before ++ lexeme).getLast?, ¬ decide (c ∈ separators) := by
    intro c hc
    rw [List.getLast?_append, List.getLast?_eq_some_getLast h.ne_nil, Option.some_or] at hc
    simpa using h.not_mem_separators c (Option.some.inj hc ▸ List.getLast_mem h.ne_nil)
  have hblanks : MaximalRun (· ∈ separators) (before ++ lexeme) (after.takeWhile (· ∈ separators))
      (textOf pieces ++ rest) := by
    rw [htext]
    exact Text.maximalRun_takeWhile after hlast
  have hafter : after.takeWhile (· ∈ separators) ++ (textOf pieces ++ rest) = after := by
    rw [htext, List.takeWhile_append_dropWhile]
  refine ⟨⟨lexeme, token, after.takeWhile (· ∈ separators)⟩ :: pieces, rest, ?_, ?_⟩
  · rw [textOf_cons, List.append_assoc, List.append_assoc, hafter]
  · exact .piece (by rwa [hafter]) hblanks hfits

/-- A text that starts with no blank can be cut into pieces, unless an integer goes
across its start. -/
theorem exists_fits (before cs : List Char) (hhead : ∀ c ∈ cs.head?, c ∉ separators)
    (hcut : Cut before cs) :
    ∃ pieces rest, textOf pieces ++ rest = cs ∧ Fits rest before pieces := by
  -- On the length: a lexeme and the blanks after it are cut off.
  induction hlength : cs.length using Nat.strongRecOn generalizing before cs with
  | ind length ih =>
  subst hlength
  have hlexeme {lexeme after : List Char} {token : Token} (h : Spells before after lexeme token)
      (htext : lexeme ++ after = cs) :
      ∃ pieces rest, textOf pieces ++ rest = cs ∧ Fits rest before pieces := by
    have hshort : (after.dropWhile (· ∈ separators)).length < cs.length := by
      have := (after.dropWhile_suffix (· ∈ separators)).length_le
      have := List.length_pos_iff.mpr h.ne_nil
      rw [← htext, List.length_append]
      omega
    have hrun : MaximalRun (· ∈ separators) [] (after.takeWhile (· ∈ separators))
        (after.dropWhile (· ∈ separators)) :=
      Text.maximalRun_takeWhile after (by simp)
    have hnext : Cut (before ++ lexeme ++ after.takeWhile (· ∈ separators))
        (after.dropWhile (· ∈ separators)) := by
      refine Cut.of_blanks ?_ hrun.mem
      rw [List.takeWhile_append_dropWhile]
      exact h.cut
    rw [← htext]
    exact h.exists_fits (ih _ hshort _ _ (by simpa using hrun.after) hnext rfl)
  rcases cs with _ | ⟨c, cs⟩
  · exact ⟨[], [], rfl, .stop .empty⟩
  by_cases hmark : c ∈ marks.map Prod.fst
  · rcases List.mem_map.mp hmark with ⟨⟨_, token⟩, hmem, rfl⟩
    exact hlexeme (.mark hmem) rfl
  by_cases hdigit : c.isDigit
  · have hbefore : ∀ d ∈ before.getLast?, ¬ d.isDigit :=
      fun d hd hd' => hcut ⟨⟨d, hd, hd'⟩, c, rfl, hdigit⟩
    have hrun := Text.maximalRun_takeWhile (c :: cs) hbefore
    have hne : (c :: cs).takeWhile Char.isDigit ≠ [] := by
      rw [List.takeWhile_cons_of_pos hdigit]
      exact List.cons_ne_nil _ _
    have htext : (c :: cs).takeWhile Char.isDigit ++ (c :: cs).dropWhile Char.isDigit = c :: cs :=
      List.takeWhile_append_dropWhile
    by_cases hvalue : Nat.ofDigitChars 10 ((c :: cs).takeWhile Char.isDigit) 0 < UInt64.size
    · exact hlexeme (.integer hne hrun (UInt64.toNat_ofNatLT (h := hvalue))) htext
    · exact ⟨[], c :: cs, rfl, .stop (htext ▸ .tooLarge hne hrun (Nat.not_lt.mp hvalue))⟩
  · exact ⟨[], c :: cs, rfl, .stop (.unexpected (hhead c rfl) hmark hdigit)⟩

namespace Decomposition

variable {text : List Char}

/-- The byte offset of the lexeme with index `n`, and of the rest after the last
lexeme. -/
def offset (d : Decomposition text) (n : Nat) : Nat :=
  byteLength (d.blanks ++ textOf (d.pieces.take n))

/-- The item with index `n`: a lexeme, or what stops the reading. -/
def item (d : Decomposition text) (n : Nat) : Item :=
  match d.pieces[n]? with
  | some piece => .ok ⟨piece.token, d.offset n⟩
  | none => stopItem (d.offset d.pieces.length) d.rest

/-- Every text can be cut into blanks, lexemes with blanks after them, and a rest. -/
theorem exists_of_text (text : List Char) : Nonempty (Decomposition text) := by
  have hblanks : MaximalRun (· ∈ separators) [] (text.takeWhile (· ∈ separators))
      (text.dropWhile (· ∈ separators)) :=
    Text.maximalRun_takeWhile text (by simp)
  have hstart : Cut [] (text.takeWhile (· ∈ separators) ++ text.dropWhile (· ∈ separators)) := by
    rintro ⟨⟨c, hc, -⟩, -⟩
    cases hc
  have hcut : Cut (text.takeWhile (· ∈ separators)) (text.dropWhile (· ∈ separators)) :=
    hstart.of_blanks hblanks.mem
  rcases exists_fits _ _ (by simpa using hblanks.after) hcut with ⟨pieces, rest, htext, hfits⟩
  refine ⟨⟨text.takeWhile (· ∈ separators), pieces, rest, ?_, htext ▸ hblanks, hfits⟩⟩
  rw [htext, List.takeWhile_append_dropWhile]

/-- A text is cut into blanks, lexemes and a rest in one way only. -/
theorem unique (d e : Decomposition text) : d = e := by
  obtain ⟨hblanks, hrest⟩ :=
    d.blanks_maximal.unique e.blanks_maximal (d.text_eq.trans e.text_eq.symm)
  rcases d.fits.unique e.fits hrest with ⟨hpieces, hrest⟩
  cases d
  cases e
  simp_all

/-- A text is read as it is cut. -/
theorem scanFrom_eq (d : Decomposition text) :
    scanFrom 0 text =
      ⟨lexemesOf (byteLength d.blanks) d.pieces, stopItem (d.offset d.pieces.length) d.rest⟩ := by
  have hscan : scanFrom 0 (d.blanks ++ (textOf d.pieces ++ d.rest)) =
      ⟨lexemesOf (byteLength d.blanks) d.pieces,
        stopItem (byteLength d.blanks + byteLength (textOf d.pieces)) d.rest⟩ := by
    rw [scanFrom_blanks d.blanks_maximal.mem, d.fits.scanFrom, Nat.zero_add]
  rw [d.text_eq] at hscan
  rw [hscan, offset, List.take_length, Text.byteLength_append]

end Decomposition

end Source

/-- A source text is cut in exactly one way into blanks, lexemes with blanks after
them and a rest that stops the reading. Its feed gives the lexemes, and then for
ever what stops it: the end of the input at the end of the text, or an error. -/
theorem Feed.ofSource_decomposition (source : String) :
    ∃ d : Source.Decomposition source.toList,
      (∀ e : Source.Decomposition source.toList, e = d) ∧
        (d.rest = [] → d.offset d.pieces.length = source.utf8ByteSize) ∧
        ∀ n, (Feed.ofSource source).item n = some (d.item n) := by
  rcases Source.Decomposition.exists_of_text source.toList with ⟨d⟩
  refine ⟨d, fun e => e.unique d, ?_, ?_⟩
  · intro hrest
    have htext := d.text_eq
    rw [hrest, List.append_nil] at htext
    rw [Source.Decomposition.offset, List.take_length, htext, Text.byteLength_toList]
  · intro n
    rw [ofSource, Source.scan, d.scanFrom_eq, followedBy, item_endless]
    simp only [List.getElem?_toArray, Source.lexemesOf, List.getElem?_mapIdx,
      Source.Decomposition.item, Source.Decomposition.offset, Text.byteLength_append]
    cases d.pieces[n]? <;> rfl

end Abacus
