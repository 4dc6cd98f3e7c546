import Abacus.Text.Blank
import Abacus.Text.Lines

/-!
# Lines of a text and lines of bytes

* `Text.LinesOf` — the lines that a text consists of, each with its line ending. There is
  exactly one way to cut a text into lines: the one of `Text.lines`.
* `Text.segments_flatMap` — an encoding that keeps the ends of segments apart from all else
  keeps the segments.
* `Text.trim_dropEnding` — a line ending is white space.
* `Text.segments_toUTF8` — the newlines among the bytes of a text are those among its
  characters, and each line of bytes is text.
-/

namespace Abacus.Text

/-! ## Segments -/

section Segments

variable {α β : Type} {stop : α → Bool} {front back : List α} {a : α}

/-- What ends no segment is the beginning of the first. -/
theorem segments_append (hne : front ≠ []) (h : ∀ a ∈ front, ¬ stop a) :
    segments stop (front ++ back) =
      match segments stop back with
      | [] => [front]
      | segment :: rest => (front ++ segment) :: rest := by
  induction front with
  | nil => exact absurd rfl hne
  | cons a front ih =>
    have hstop : ¬ stop a := h a (by simp)
    rw [List.cons_append, segments, if_neg hstop]
    rcases front with _ | ⟨b, front⟩
    · rfl
    · rw [ih (List.cons_ne_nil _ _) fun c hc => h c (List.mem_cons_of_mem a hc)]
      cases segments stop back <;> rfl

/-- The first segment ends at the first element that ends one. -/
theorem segments_append_cons (h : ∀ a ∈ front, ¬ stop a) (hstop : stop a) :
    segments stop (front ++ a :: back) = (front ++ [a]) :: segments stop back := by
  rcases front with _ | ⟨b, front⟩
  · simp [segments, hstop]
  · rw [segments_append (List.cons_ne_nil _ _) h, segments, if_pos hstop]

theorem segments_eq_singleton (hne : front ≠ []) (h : ∀ a ∈ front, ¬ stop a) :
    segments stop front = [front] := by
  rw [← List.append_nil front, segments_append hne h, List.append_nil]
  rfl

/-- If exactly those elements that end a segment are encoded by one that ends a segment, and
all others by some that do not, then the segments are encoded one by one. -/
theorem segments_flatMap {encode : α → List β} {ends : β → Bool} (hne : ∀ a, encode a ≠ [])
    (hends : ∀ a, stop a → ∃ b, encode a = [b] ∧ ends b)
    (hother : ∀ a, ¬ stop a → ∀ b ∈ encode a, ¬ ends b) (as : List α) :
    segments ends (as.flatMap encode) = (segments stop as).map (List.flatMap encode) := by
  induction as with
  | nil => rfl
  | cons a as ih =>
    rw [List.flatMap_cons, segments]
    by_cases hstop : stop a
    · obtain ⟨b, hencode, hb⟩ := hends a hstop
      simp [hencode, segments, hb, hstop, ih]
    · rw [segments_append (hne a) (hother a hstop), if_neg hstop, ih]
      cases segments stop as <;> simp

end Segments

/-! ## Lines -/

/-- The characters are the lines one after another, each with its line ending: a newline, or
a carriage return and a newline. Only the last line may have none. -/
inductive LinesOf : List Char → List (List Char) → Prop where
  | nil : LinesOf [] []
  | last {line : List Char} (hne : line ≠ []) (hline : '\n' ∉ line) : LinesOf line [line]
  | newline {line text : List Char} {lines : List (List Char)} (hline : '\n' ∉ line)
    (hreturn : line.getLast? ≠ some '\r') (hrest : LinesOf text lines) :
    LinesOf (line ++ '\n' :: text) (line :: lines)
  | returnNewline {line text : List Char} {lines : List (List Char)} (hline : '\n' ∉ line)
    (hrest : LinesOf text lines) : LinesOf (line ++ '\r' :: '\n' :: text) (line :: lines)

variable {line text : List Char}

theorem dropEnding_of_not_mem (hline : '\n' ∉ line) : dropEnding line = line := by
  have hreverse : '\n' ∉ line.reverse := by simpa using hline
  unfold dropEnding
  split
  · simp_all
  · simp_all
  · rfl

theorem dropEnding_newline (hreturn : line.getLast? ≠ some '\r') :
    dropEnding (line ++ ['\n']) = line := by
  rcases List.eq_nil_or_concat line with rfl | ⟨front, c, rfl⟩
  · rfl
  · have hc : c ≠ '\r' := by simpa using hreturn
    simp [dropEnding, hc]

theorem dropEnding_returnNewline : dropEnding (line ++ ['\r', '\n']) = line := by
  simp [dropEnding]

/-- A text is cut into lines in one way only: behind each newline. -/
theorem LinesOf.eq_map_segments {lines : List (List Char)} (h : LinesOf text lines) :
    lines = (segments (· = '\n') text).map dropEnding := by
  have hstops {line : List Char} (hline : '\n' ∉ line) : ∀ c ∈ line, ¬ decide (c = '\n') := by
    intro c hc hnewline
    exact hline (of_decide_eq_true hnewline ▸ hc)
  induction h with
  | nil => rfl
  | last hne hline =>
    rw [segments_eq_singleton hne (hstops hline), List.map_singleton, dropEnding_of_not_mem hline]
  | newline hline hreturn _ ih =>
    rw [segments_append_cons (hstops hline) rfl, List.map_cons, ← ih, dropEnding_newline hreturn]
  | @returnNewline line text lines hline _ ih =>
    have hfront : '\n' ∉ line ++ ['\r'] := by simpa using hline
    rw [List.append_cons, segments_append_cons (hstops hfront) rfl, List.map_cons, ← ih,
      List.append_assoc, List.cons_append, List.nil_append, dropEnding_returnNewline]

/-- Every text can be cut into lines. -/
theorem exists_linesOf (text : List Char) : ∃ lines, LinesOf text lines := by
  -- On the text after the first newline.
  induction hlength : text.length using Nat.strongRecOn generalizing text with
  | ind length ih =>
  subst hlength
  by_cases hmem : '\n' ∈ text
  · obtain ⟨front, back, rfl, hfront⟩ := List.eq_append_cons_of_mem hmem
    obtain ⟨lines, hlines⟩ := ih back.length (by simp; omega) back rfl
    by_cases hreturn : front.getLast? = some '\r'
    · obtain ⟨line, rfl⟩ := List.getLast?_eq_some_iff.mp hreturn
      have hline : '\n' ∉ line := fun h => hfront (List.mem_append_left _ h)
      have hall := LinesOf.returnNewline hline hlines
      exact ⟨line :: lines, by simpa using hall⟩
    · exact ⟨front :: lines, .newline hfront hreturn hlines⟩
  · rcases text with _ | ⟨c, text⟩
    · exact ⟨[], .nil⟩
    · exact ⟨[c :: text], .last (List.cons_ne_nil _ _) hmem⟩

/-- The lines of a text are what it consists of. -/
theorem linesOf_lines (text : String) : LinesOf text.toList ((lines text).map String.toList) := by
  obtain ⟨cut, hcut⟩ := exists_linesOf text.toList
  have hsame : (lines text).map String.toList = cut := by
    rw [hcut.eq_map_segments, lines, List.map_map]
    exact List.map_congr_left fun line _ => String.toList_ofList
  rwa [hsame]

/-- Lines of which a text consists are all its `lines`. -/
theorem LinesOf.eq_lines {text : String} {cut : List String}
    (h : LinesOf text.toList (cut.map String.toList)) : cut = lines text := by
  have hofList : String.ofList ∘ String.toList = id := funext fun _ => String.ofList_toList
  rw [← List.map_id cut, ← hofList, ← List.map_map, h.eq_map_segments, List.map_map]
  rfl

/-! ## Line endings and white space -/

/-- A line ending is white space. -/
theorem trim_dropEnding (line : List Char) :
    trim (.ofList (dropEnding line)) = trim (.ofList line) := by
  obtain ⟨blanks, hline, hblanks⟩ :
      ∃ blanks, line = dropEnding line ++ blanks ∧ ∀ c ∈ blanks, isWhiteSpace c := by
    unfold dropEnding
    split
    · rename_i rest hreverse
      refine ⟨['\r', '\n'], ?_, List.all_eq_true.mp rfl⟩
      rw [← List.reverse_reverse line, hreverse]
      simp
    · rename_i rest hreverse
      refine ⟨['\n'], ?_, List.all_eq_true.mp rfl⟩
      rw [← List.reverse_reverse line, hreverse]
      simp
    · exact ⟨[], by simp, by simp⟩
  -- What is trimmed from the line without its ending is so from the whole line.
  have htrimmed := (trimmed_trim (.ofList (dropEnding line))).append hblanks
  rw [← String.ofList_append, ← hline] at htrimmed
  exact htrimmed.eq_trim

/-! ## Bytes -/

/-- No byte of another character is that of a newline. -/
theorem newline_not_mem_utf8EncodeChar {c : Char} (hc : c ≠ '\n') :
    10 ∉ String.utf8EncodeChar c := by
  have hcode : c.val.toNat ≠ 10 := by
    intro h
    exact hc (Char.ext (UInt32.toNat_inj.mp h))
  have hbyte {n : Nat} (hsmall : n < 256) (hn : n ≠ 10) : (10 : UInt8) ≠ UInt8.ofNat n := by
    intro h
    have hvalue : 10 = n % 256 := congrArg UInt8.toNat h
    omega
  unfold String.utf8EncodeChar
  dsimp only
  split
  · simpa using hbyte (by omega) hcode
  · -- All bytes of longer encodings have their highest bit set.
    repeat' split
    all_goals
      simp only [List.mem_cons, List.not_mem_nil, or_false, not_or]
      repeat' apply And.intro
      all_goals exact hbyte (by omega) (by omega)

/-- The bytes of a text are read as that text. -/
theorem fromUTF8?_toUTF8 (text : String) : String.fromUTF8? text.toUTF8 = some text := by
  rw [String.toUTF8_eq_toByteArray, String.fromUTF8?, dif_pos text.isValidUTF8]
  rfl

/-- The bytes of some characters are read as the text of these characters. -/
theorem fromUTF8?_flatMap (cs : List Char) :
    String.fromUTF8? ⟨(cs.flatMap String.utf8EncodeChar).toArray⟩ = some (.ofList cs) := by
  have hbytes : (⟨(cs.flatMap String.utf8EncodeChar).toArray⟩ : ByteArray) =
      (String.ofList cs).toUTF8 := by
    rw [String.toUTF8_eq_toByteArray, String.toByteArray_ofList, List.utf8Encode]
    exact ByteArray.ext List.data_toByteArray.symm
  rw [hbytes, fromUTF8?_toUTF8]

/-- The bytes of a text are those of its characters. -/
theorem toList_toUTF8 (text : String) :
    text.toUTF8.data.toList = text.toList.flatMap String.utf8EncodeChar := by
  rw [String.toUTF8_eq_toByteArray, ← String.utf8Encode_toList, List.utf8Encode,
    List.toList_data_toByteArray]

/-- The lines of bytes of a text are the bytes of its lines. -/
theorem segments_toUTF8 (text : String) :
    segments (· = 10) text.toUTF8.data.toList =
      (segments (· = '\n') text.toList).map (List.flatMap String.utf8EncodeChar) := by
  rw [toList_toUTF8]
  refine segments_flatMap ?_ ?_ ?_ _
  · exact fun c => String.utf8EncodeChar_ne_nil
  · intro c hc
    obtain rfl : c = '\n' := of_decide_eq_true hc
    exact ⟨10, rfl, rfl⟩
  · intro c hc byte hbyte hnewline
    obtain rfl : byte = 10 := of_decide_eq_true hnewline
    exact newline_not_mem_utf8EncodeChar (by simpa using hc) hbyte

end Abacus.Text
