import Abacus.Proofs.Relocation
import Abacus.Proofs.Scan

/-!
# Blanks between tokens

* `Source.scanFrom_shift` — a text that stands further back reads the same,
  further back.
* `Source.scanFrom_insert`, `Feed.ofSource_insert` — blanks that cut no integer move
  what comes after them and change nothing else.
* `interpret_insert` — so the value of a text stays, and its error moves along.
-/

namespace Abacus

/-- Where a position goes when `count` bytes are put in at `start`. -/
def Text.shift (start count position : Nat) : Nat :=
  if position < start then position else position + count

theorem Text.shift_of_lt {start count position : Nat} (h : position < start) :
    shift start count position = position :=
  if_pos h

theorem Text.shift_of_le {start count position : Nat} (h : start ≤ position) :
    shift start count position = position + count :=
  if_neg (Nat.not_lt.mpr h)

namespace Source

variable {f : Nat → Nat}

/-! ## Moved readings -/

namespace Reading

def relocate (f : Nat → Nat) (reading : Reading) : Reading :=
  ⟨reading.lexemes.map (Lexeme.relocate f), reading.tail.relocate f⟩

/-- Only the second part moves if nothing in front of the cut does. -/
theorem Within.relocate_andThen {first : Reading} {start stop : Nat}
    (h : first.Within start stop) (hsame : ∀ p < stop, f p = p) (second : Reading) :
    (first.andThen second).relocate f = first.andThen (second.relocate f) := by
  rcases first with ⟨lexemes, tail⟩
  have hlexemes : lexemes.map (Lexeme.relocate f) = lexemes := by
    refine (List.map_congr_left ?_).trans (List.map_id lexemes)
    intro lexeme hlexeme
    rw [Lexeme.relocate, hsame _ (h.lexemes lexeme hlexeme).2]
    rfl
  rcases tail with error | lexeme
  · -- The first part has an error, in front of the cut, and the second does not count.
    have herror : error.relocate f = error := by
      have hposition := hsame _ (h.error error rfl).2
      cases error <;> exact congrArg _ hposition
    simp only [andThen, relocate, Item.relocate, hlexemes, herror]
  · -- The end of the first part goes away, so nobody asks where it moves.
    simp only [andThen, relocate, List.map_append, hlexemes]

end Reading

/-- A text that stands `count` bytes further back is read with its positions moved. -/
theorem scanFrom_shift {count : Nat} (offset : Nat) (cs : List Char)
    (hf : ∀ p, offset ≤ p → f p = p + count) :
    scanFrom (offset + count) cs = (scanFrom offset cs).relocate f := by
  induction offset, cs using scanFrom_induction with
  | nil offset =>
    rw [scanFrom_nil, scanFrom_nil, ← hf offset (Nat.le_refl _)]
    rfl
  | blank offset c cs hblank ih =>
    rw [scanFrom_blank hblank, scanFrom_blank hblank, Nat.add_right_comm]
    exact ih fun p hp => hf p (Nat.le_of_add_right_le hp)
  | mark offset c cs token hblank htoken ih =>
    rw [scanFrom_token hblank htoken, scanFrom_token hblank htoken, Nat.add_right_comm,
      ih fun p hp => hf p (Nat.le_of_add_right_le hp), ← hf offset (Nat.le_refl _)]
    rfl
  | integer offset c cs value hdigit hvalue ih =>
    rw [scanFrom_integer hdigit hvalue, scanFrom_integer hdigit hvalue, Nat.add_right_comm,
      ih fun p hp => hf p (Nat.le_of_add_right_le hp), ← hf offset (Nat.le_refl _)]
    rfl
  | tooLarge offset c cs hdigit hvalue =>
    rw [scanFrom_tooLarge hdigit hvalue, scanFrom_tooLarge hdigit hvalue,
      ← hf offset (Nat.le_refl _)]
    rfl
  | unexpected offset c cs hblank htoken hdigit =>
    rw [scanFrom_unexpected hblank htoken hdigit, scanFrom_unexpected hblank htoken hdigit,
      ← hf offset (Nat.le_refl _)]
    rfl

/-- No integer goes across blanks. -/
theorem Cut.blanks {firsts blanks lasts : List Char} (h : Cut firsts lasts)
    (hblanks : ∀ c ∈ blanks, c ∈ separators) : Cut firsts (blanks ++ lasts) := by
  cases blanks with
  | nil => exact h
  | cons c blanks =>
    -- After the cut stands a blank.
    rintro ⟨_, d, hd, hdigit⟩
    obtain rfl : c = d := by simpa using hd
    exact not_mem_separators_of_isDigit hdigit (hblanks c (by simp))

/-- Blanks that are put in where no integer is cut move the positions behind them. -/
theorem scanFrom_insert {firsts blanks lasts : List Char} (hcut : Cut firsts lasts)
    (hblanks : ∀ c ∈ blanks, c ∈ separators) :
    scanFrom 0 (firsts ++ (blanks ++ lasts)) =
      (scanFrom 0 (firsts ++ lasts)).relocate
        (Text.shift (Text.byteLength firsts) (Text.byteLength blanks)) := by
  have hwithin := within_scanFrom 0 firsts
  rw [Nat.zero_add] at hwithin
  -- Both texts are cut at the same place; only what comes after it stands elsewhere.
  have hfirsts (second : Reading) :
      ((scanFrom 0 firsts).andThen second).relocate
          (Text.shift (Text.byteLength firsts) (Text.byteLength blanks)) =
        (scanFrom 0 firsts).andThen (second.relocate
          (Text.shift (Text.byteLength firsts) (Text.byteLength blanks))) :=
    hwithin.relocate_andThen (fun p hp => Text.shift_of_lt hp) second
  have hlasts : scanFrom (Text.byteLength firsts + Text.byteLength blanks) lasts =
      (scanFrom (Text.byteLength firsts) lasts).relocate
        (Text.shift (Text.byteLength firsts) (Text.byteLength blanks)) :=
    scanFrom_shift _ lasts fun p hp => Text.shift_of_le hp
  rw [scanFrom_append 0 firsts hcut, scanFrom_append 0 firsts (hcut.blanks hblanks),
    scanFrom_blanks hblanks, Nat.zero_add, hfirsts, hlasts]

end Source

variable {before blanks after : String}

/-- Blanks that are put into a text move the positions of its feed. -/
theorem Feed.ofSource_insert (hcut : Source.Cut before.toList after.toList)
    (hblanks : ∀ c ∈ blanks.toList, c ∈ Source.separators) :
    ofSource (before ++ blanks ++ after) =
      (ofSource (before ++ after)).relocate
        (Text.shift before.utf8ByteSize blanks.utf8ByteSize) := by
  have hscan : Source.scan (before ++ blanks ++ after) =
      (Source.scan (before ++ after)).relocate
        (Text.shift before.utf8ByteSize blanks.utf8ByteSize) := by
    simp only [Source.scan, String.toList_append, List.append_assoc,
      ← Text.byteLength_toList]
    exact Source.scanFrom_insert hcut hblanks
  rw [ofSource, ofSource, relocate_followedBy, hscan]
  rfl

/-- Blanks put into a text, but not between two digits, leave its value alone
and move the position of its error if that stands behind them. -/
theorem interpret_insert (before blanks after : String)
    (hblanks : ∀ c ∈ blanks.toList, c ∈ Source.separators)
    (hcut : Source.Cut before.toList after.toList) :
    interpret (before ++ blanks ++ after) =
      (interpret (before ++ after)).mapError
        (Error.relocate (Text.shift before.utf8ByteSize blanks.utf8ByteSize)) :=
  interpret_relocate (Feed.ofSource_insert hcut hblanks)

/-- The error at the second parenthesis stays the error and moves with the
parenthesis. -/
theorem interpret_insert_line_break :
    interpret ("(" ++ ")") =
        .error (.parse (.unexpectedToken [.integer, .lparen] .rparen 1)) ∧
      interpret ("(" ++ " \n" ++ ")") =
        .error (.parse (.unexpectedToken [.integer, .lparen] .rparen 3)) := by
  have hblanks : ∀ c ∈ " \n".toList, c ∈ Source.separators := by simp [Source.separators]
  have hcut : Source.Cut "(".toList ")".toList := by simp [Source.Cut]
  have hopen : '('.utf8Size = 1 := by decide
  have hclose : ')'.utf8Size = 1 := by decide
  have hscan : Source.scan ("(" ++ ")") = ⟨[⟨.lparen, 0⟩, ⟨.rparen, 1⟩], .ok ⟨.eof, 2⟩⟩ := by
    have htext : ("(" ++ ")").toList = ['(', ')'] := by decide
    rw [Source.scan, htext, Source.scanFrom_token (by simp [Source.separators]) rfl, hopen,
      Source.scanFrom_token (by simp [Source.separators]) rfl, hclose, Source.scanFrom_nil]
    rfl
  have hplain : interpret ("(" ++ ")") =
      .error (.parse (.unexpectedToken [.integer, .lparen] .rparen 1)) := by
    rw [interpret_eq, Feed.ofSource, hscan]
    cbv
  have hmoved := interpret_insert "(" " \n" ")" hblanks hcut
  rw [hplain] at hmoved
  exact ⟨hplain, hmoved⟩

end Abacus
