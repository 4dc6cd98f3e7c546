import Abacus.Source

/-!
# Scanning

How the reading of a text is put together.

* `Source.separators` — the characters that may stand between tokens.
* `Source.scanFrom_blank` and the lemmas beside it — one equation for each
  character that a text can start with, and `Source.scanFrom_induction` with one
  case for each.
* `Source.scanFrom_append` — a text cut in two reads like its first part and, if
  that has no error, its second part; no integer may be cut.
* `Source.within_scanFrom` — the positions in a reading lie inside the text that
  was read.
-/

namespace Abacus

namespace Text

/-- The bytes of a string are those of its characters. -/
theorem byteLength_toList (text : String) : byteLength text.toList = text.utf8ByteSize := by
  have hlist (cs : List Char) : byteLength cs = (String.ofList cs).utf8ByteSize := by
    induction cs with
    | nil => rfl
    | cons c cs ih =>
      rw [byteLength_cons, ih, String.ofList_cons, String.utf8ByteSize_append,
        String.utf8ByteSize_singleton]
  rw [hlist, String.ofList_toList]

variable (c : Char) (cs : List Char)

theorem byteLength_cons_pos : 0 < byteLength (c :: cs) :=
  Nat.add_pos_left c.utf8Size_pos _

/-- The bytes of a text are those of a run behind its first character and of the rest. -/
theorem byteLength_run (p : Char → Bool) :
    byteLength (c :: cs) = byteLength (c :: cs.takeWhile p) + byteLength (cs.dropWhile p) := by
  rw [← byteLength_append, List.cons_append, List.takeWhile_append_dropWhile]

end Text

namespace Source

variable {offset : Nat} {c : Char} {cs firsts lasts : List Char}

/-! ## One item -/

/-- The characters that may stand between tokens. -/
def separators : List Char := [' ', '\t', '\n', '\r', '\x0c']

theorem isBlank_iff : isBlank c ↔ c ∈ separators := by
  simp [isBlank, separators, or_assoc]

theorem not_mem_separators_of_isDigit (h : c.isDigit) : c ∉ separators := by
  intro hblank
  simp only [separators, List.mem_cons, List.not_mem_nil, or_false] at hblank
  rcases hblank with rfl | rfl | rfl | rfl | rfl <;> cases h

theorem ofChar?_of_isDigit (h : c.isDigit) : Token.ofChar? c = none := by
  unfold Token.ofChar?
  split <;> first | rfl | cases h

section Next

variable {token : Token} {value : UInt64}

theorem next_blank (h : c ∈ separators) :
    next offset (c :: cs) = next (offset + c.utf8Size) cs := by
  rw [next, if_pos (isBlank_iff.mpr h)]

theorem next_token (hblank : c ∉ separators) (h : Token.ofChar? c = some token) :
    next offset (c :: cs) = .lexeme ⟨token, offset⟩ (offset + c.utf8Size) cs := by
  rw [next, if_neg (mt isBlank_iff.mp hblank)]
  simp only [h]

theorem next_integer (hdigit : c.isDigit)
    (h : value? (c :: cs.takeWhile Char.isDigit) = some value) :
    next offset (c :: cs) = .lexeme ⟨.integer value, offset⟩
      (offset + Text.byteLength (c :: cs.takeWhile Char.isDigit)) (cs.dropWhile Char.isDigit) := by
  rw [next, if_neg (mt isBlank_iff.mp (not_mem_separators_of_isDigit hdigit))]
  simp only [ofChar?_of_isDigit hdigit, if_pos hdigit, h]

theorem next_tooLarge (hdigit : c.isDigit)
    (h : value? (c :: cs.takeWhile Char.isDigit) = none) :
    next offset (c :: cs) =
      .failure (.literalTooLarge (String.ofList (c :: cs.takeWhile Char.isDigit)) offset) := by
  rw [next, if_neg (mt isBlank_iff.mp (not_mem_separators_of_isDigit hdigit))]
  simp only [ofChar?_of_isDigit hdigit, if_pos hdigit, h]

theorem next_unexpected (hblank : c ∉ separators) (htoken : Token.ofChar? c = none)
    (hdigit : ¬ c.isDigit) : next offset (c :: cs) = .failure (.unexpectedCharacter c offset) := by
  rw [next, if_neg (mt isBlank_iff.mp hblank)]
  simp only [htoken, if_neg hdigit]

end Next

section ScanFrom

variable {lexeme : Lexeme} {stop : Nat} {rest : List Char} {error : LexError}

theorem scanFrom_of_ending (h : next offset cs = .ending stop) :
    scanFrom offset cs = ⟨[], .ok ⟨.eof, stop⟩⟩ := by
  rw [scanFrom]
  split <;> simp_all

theorem scanFrom_of_lexeme (h : next offset cs = .lexeme lexeme stop rest) :
    scanFrom offset cs = (scanFrom stop rest).cons lexeme := by
  rw [scanFrom]
  split <;> simp_all

theorem scanFrom_of_failure (h : next offset cs = .failure error) :
    scanFrom offset cs = ⟨[], .error error⟩ := by
  rw [scanFrom]
  split <;> simp_all

@[simp] theorem scanFrom_nil : scanFrom offset [] = ⟨[], .ok ⟨.eof, offset⟩⟩ :=
  scanFrom_of_ending rfl

/-- Blanks are skipped. -/
theorem scanFrom_blank (h : c ∈ separators) :
    scanFrom offset (c :: cs) = scanFrom (offset + c.utf8Size) cs := by
  have hsame : next offset (c :: cs) = next (offset + c.utf8Size) cs := next_blank h
  rcases hnext : next (offset + c.utf8Size) cs with stop | ⟨lexeme, stop, rest⟩ | error
  · rw [scanFrom_of_ending hnext, scanFrom_of_ending (hsame.trans hnext)]
  · rw [scanFrom_of_lexeme hnext, scanFrom_of_lexeme (hsame.trans hnext)]
  · rw [scanFrom_of_failure hnext, scanFrom_of_failure (hsame.trans hnext)]

theorem scanFrom_token {token : Token} (hblank : c ∉ separators)
    (h : Token.ofChar? c = some token) :
    scanFrom offset (c :: cs) = (scanFrom (offset + c.utf8Size) cs).cons ⟨token, offset⟩ :=
  scanFrom_of_lexeme (next_token hblank h)

/-- A run of digits is one integer, if 64 bits hold its value. -/
theorem scanFrom_integer {value : UInt64} (hdigit : c.isDigit)
    (h : value? (c :: cs.takeWhile Char.isDigit) = some value) :
    scanFrom offset (c :: cs) =
      (scanFrom (offset + Text.byteLength (c :: cs.takeWhile Char.isDigit))
        (cs.dropWhile Char.isDigit)).cons ⟨.integer value, offset⟩ :=
  scanFrom_of_lexeme (next_integer hdigit h)

/-- A run of digits whose value 64 bits do not hold is an error. -/
theorem scanFrom_tooLarge (hdigit : c.isDigit)
    (h : value? (c :: cs.takeWhile Char.isDigit) = none) :
    scanFrom offset (c :: cs) =
      ⟨[], .error (.literalTooLarge (String.ofList (c :: cs.takeWhile Char.isDigit)) offset)⟩ :=
  scanFrom_of_failure (next_tooLarge hdigit h)

theorem scanFrom_unexpected (hblank : c ∉ separators) (htoken : Token.ofChar? c = none)
    (hdigit : ¬ c.isDigit) :
    scanFrom offset (c :: cs) = ⟨[], .error (.unexpectedCharacter c offset)⟩ :=
  scanFrom_of_failure (next_unexpected hblank htoken hdigit)

end ScanFrom

/-- To show something of every text, one may suppose it of what is left when a blank or a
lexeme has been read. -/
@[elab_as_elim]
theorem scanFrom_induction {motive : Nat → List Char → Prop}
    (nil : ∀ offset, motive offset [])
    (blank : ∀ offset c cs, c ∈ separators → motive (offset + c.utf8Size) cs →
      motive offset (c :: cs))
    (mark : ∀ offset c cs token, c ∉ separators → Token.ofChar? c = some token →
      motive (offset + c.utf8Size) cs → motive offset (c :: cs))
    (integer : ∀ offset c cs value, c.isDigit →
      value? (c :: cs.takeWhile Char.isDigit) = some value →
      motive (offset + Text.byteLength (c :: cs.takeWhile Char.isDigit))
        (cs.dropWhile Char.isDigit) → motive offset (c :: cs))
    (tooLarge : ∀ offset c cs, c.isDigit → value? (c :: cs.takeWhile Char.isDigit) = none →
      motive offset (c :: cs))
    (unexpected : ∀ offset c cs, c ∉ separators → Token.ofChar? c = none → ¬ c.isDigit →
      motive offset (c :: cs)) (offset : Nat) (cs : List Char) : motive offset cs := by
  induction hlength : cs.length using Nat.strongRecOn generalizing offset cs with
  | ind length ih =>
  subst hlength
  cases cs with
  | nil => exact nil offset
  | cons c cs =>
    have hless : (cs.dropWhile Char.isDigit).length < (c :: cs).length :=
      Nat.lt_succ_of_le (cs.dropWhile_suffix Char.isDigit).length_le
    by_cases hblank : c ∈ separators
    · exact blank offset c cs hblank (ih _ (Nat.lt_succ_self _) _ _ rfl)
    rcases htoken : Token.ofChar? c with _ | token
    · by_cases hdigit : c.isDigit
      · rcases hvalue : value? (c :: cs.takeWhile Char.isDigit) with _ | value
        · exact tooLarge offset c cs hdigit hvalue
        · exact integer offset c cs value hdigit hvalue (ih _ hless _ _ rfl)
      · exact unexpected offset c cs hblank htoken hdigit
    · exact mark offset c cs token hblank htoken (ih _ (Nat.lt_succ_self _) _ _ rfl)

/-- All blanks in front are skipped. -/
theorem scanFrom_blanks (h : ∀ c ∈ firsts, c ∈ separators) :
    scanFrom offset (firsts ++ lasts) = scanFrom (offset + Text.byteLength firsts) lasts := by
  induction firsts generalizing offset with
  | nil => rfl
  | cons c firsts ih =>
    rw [List.cons_append, scanFrom_blank (h c (by simp)), ih fun d hd => h d (by simp [hd]),
      Text.byteLength_cons, Nat.add_assoc]

/-! ## Cuts -/

/-- No integer goes across the cut between two parts of a text. -/
def Cut (firsts lasts : List Char) : Prop :=
  ¬ ((∃ c ∈ firsts.getLast?, c.isDigit) ∧ ∃ c ∈ lasts.head?, c.isDigit)

namespace Cut

theorem tail (h : Cut (c :: firsts) lasts) : Cut firsts lasts := by
  cases firsts with
  | nil =>
    intro hboth
    simp at hboth
  | cons d firsts => simpa [Cut] using h

theorem dropWhile (h : Cut firsts lasts) (p : Char → Bool) : Cut (firsts.dropWhile p) lasts := by
  induction firsts with
  | nil => exact h
  | cons c firsts ih =>
    rw [List.dropWhile_cons]
    split
    · exact ih h.tail
    · exact h

/-- A run of digits that starts in the first part of a cut text ends in this part. -/
theorem digits (h : Cut (c :: firsts) lasts) (hdigit : c.isDigit) :
    (firsts ++ lasts).takeWhile Char.isDigit = firsts.takeWhile Char.isDigit ∧
      (firsts ++ lasts).dropWhile Char.isDigit = firsts.dropWhile Char.isDigit ++ lasts := by
  induction firsts generalizing c with
  | nil =>
    -- The first part ends with the digit `c`, so the second starts with none.
    cases lasts with
    | nil => simp
    | cons d lasts =>
      have hd : ¬ d.isDigit := by
        intro hd
        exact h ⟨⟨c, rfl, hdigit⟩, ⟨d, rfl, hd⟩⟩
      simp [hd]
  | cons d firsts ih =>
    by_cases hd : d.isDigit
    · obtain ⟨htake, hdrop⟩ := ih h.tail hd
      simp [hd, htake, hdrop]
    · simp [hd]

end Cut

/-- Goes on with a second reading where the first met the end of its text. -/
def Reading.andThen (first second : Reading) : Reading :=
  match first.tail with
  | .ok _ => ⟨first.lexemes ++ second.lexemes, second.tail⟩
  | .error _ => first

theorem Reading.andThen_cons (first second : Reading) (lexeme : Lexeme) :
    (first.cons lexeme).andThen second = (first.andThen second).cons lexeme := by
  rcases first with ⟨lexemes, _ | _⟩ <;> rfl

/-- The parts of a text are read one after the other. -/
theorem scanFrom_append (offset : Nat) (firsts : List Char) (hcut : Cut firsts lasts) :
    scanFrom offset (firsts ++ lasts) =
      (scanFrom offset firsts).andThen (scanFrom (offset + Text.byteLength firsts) lasts) := by
  -- On the reading of the first part; every step leaves a cut behind.
  induction offset, firsts using scanFrom_induction with
  | nil offset => rw [scanFrom_nil]; rfl
  | blank offset c firsts hblank ih =>
    rw [List.cons_append, scanFrom_blank hblank, scanFrom_blank hblank, ih hcut.tail,
      Text.byteLength_cons, Nat.add_assoc]
  | mark offset c firsts token hblank htoken ih =>
    rw [List.cons_append, scanFrom_token hblank htoken, scanFrom_token hblank htoken,
      ih hcut.tail, Reading.andThen_cons, Text.byteLength_cons, Nat.add_assoc]
  | integer offset c firsts value hdigit hvalue ih =>
    obtain ⟨htake, hdrop⟩ := hcut.digits hdigit
    have hwhole : value? (c :: (firsts ++ lasts).takeWhile Char.isDigit) = some value := by
      rw [htake, hvalue]
    rw [List.cons_append, scanFrom_integer hdigit hwhole, scanFrom_integer hdigit hvalue,
      htake, hdrop, ih (hcut.tail.dropWhile _), Reading.andThen_cons,
      Text.byteLength_run c firsts Char.isDigit, Nat.add_assoc]
  | tooLarge offset c firsts hdigit hvalue =>
    obtain ⟨htake, _⟩ := hcut.digits hdigit
    have hwhole : value? (c :: (firsts ++ lasts).takeWhile Char.isDigit) = none := by
      rw [htake, hvalue]
    rw [List.cons_append, scanFrom_tooLarge hdigit hwhole, scanFrom_tooLarge hdigit hvalue, htake]
    rfl
  | unexpected offset c firsts hblank htoken hdigit =>
    rw [List.cons_append, scanFrom_unexpected hblank htoken hdigit,
      scanFrom_unexpected hblank htoken hdigit]
    rfl

/-! ## Positions -/

/-- Everything in a reading stands between two places, and the end of the input,
if it was met, at the second of them. -/
structure Reading.Within (reading : Reading) (start stop : Nat) : Prop where
  lexemes : ∀ lexeme ∈ reading.lexemes, start ≤ lexeme.position ∧ lexeme.position < stop
  eof : ∀ lexeme, reading.tail = .ok lexeme → lexeme = ⟨.eof, stop⟩
  error : ∀ error, reading.tail = .error error → start ≤ error.position ∧ error.position < stop

namespace Reading.Within

variable {reading : Reading} {start next stop : Nat}

theorem mono (h : reading.Within next stop) (hle : start ≤ next) : reading.Within start stop where
  lexemes lexeme hlexeme :=
    have hinside := h.lexemes lexeme hlexeme
    ⟨Nat.le_trans hle hinside.1, hinside.2⟩
  eof := h.eof
  error error herror :=
    have hinside := h.error error herror
    ⟨Nat.le_trans hle hinside.1, hinside.2⟩

/-- A reading goes on within its places with one more lexeme between them. -/
theorem cons {token : Token} (h : reading.Within next stop) (hstart : start < next)
    (hstop : next ≤ stop) : (reading.cons ⟨token, start⟩).Within start stop where
  lexemes lexeme hlexeme := by
    rcases List.mem_cons.mp hlexeme with rfl | hrest
    · exact ⟨Nat.le_refl _, Nat.lt_of_lt_of_le hstart hstop⟩
    · have hinside := h.lexemes lexeme hrest
      exact ⟨by omega, hinside.2⟩
  eof := h.eof
  error := (h.mono (Nat.le_of_lt hstart)).error

theorem of_error {error : LexError} (hstart : start ≤ error.position)
    (hstop : error.position < stop) : Reading.Within ⟨[], .error error⟩ start stop where
  lexemes lexeme h := by cases h
  eof lexeme h := by cases h
  error := by
    rintro _ ⟨⟩
    exact ⟨hstart, hstop⟩

end Reading.Within

/-- The positions in a reading lie inside the text. -/
theorem within_scanFrom (offset : Nat) (cs : List Char) :
    (scanFrom offset cs).Within offset (offset + Text.byteLength cs) := by
  induction offset, cs using scanFrom_induction with
  | nil offset =>
    rw [scanFrom_nil]
    exact ⟨fun _ h => (by cases h), fun _ h => (Except.ok.inj h).symm, fun _ h => (by cases h)⟩
  | blank offset c cs hblank ih =>
    rw [scanFrom_blank hblank]
    exact (Nat.add_assoc .. ▸ ih).mono (Nat.le_add_right ..)
  | mark offset c cs token hblank htoken ih =>
    have hsize := c.utf8Size_pos
    rw [scanFrom_token hblank htoken]
    exact (Nat.add_assoc .. ▸ ih).cons (by omega) (by simp)
  | integer offset c cs value hdigit hvalue ih =>
    have hdigits := Text.byteLength_cons_pos c (cs.takeWhile Char.isDigit)
    rw [scanFrom_integer hdigit hvalue, Text.byteLength_run c cs Char.isDigit]
    exact (Nat.add_assoc .. ▸ ih).cons (by omega) (by omega)
  | tooLarge offset c cs hdigit hvalue =>
    rw [scanFrom_tooLarge hdigit hvalue]
    exact .of_error (Nat.le_refl _) (Nat.lt_add_of_pos_right (Text.byteLength_cons_pos ..))
  | unexpected offset c cs hblank htoken hdigit =>
    rw [scanFrom_unexpected hblank htoken hdigit]
    exact .of_error (Nat.le_refl _) (Nat.lt_add_of_pos_right (Text.byteLength_cons_pos ..))

end Source

end Abacus
