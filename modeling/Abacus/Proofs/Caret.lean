import Abacus.Proofs.Diagnostics
import Abacus.Proofs.Session

/-!
# The caret under a text

An error is shown as the text, a line with a caret, and a message. In front of the caret are as
many spaces as there are characters in front of the place of the error. The lines before it are
counted, too, so the caret is under the place only where the text is one line.

* `Text.OnLine` — the line that a place is on.
* `exists_onLine` — every error that is reported is on some line of the text.
* `CaretAt` — a report shows an error with a caret in some column.
* `caretAt_iff` — this column is the number of all characters in front of the place.
* `report_caret_iff` — on the last line of a text, the caret is under the place just if there
  is no other line.
* `caretAt_of_mem_expressions` — so it is for all expressions of a file.
-/

namespace Abacus

/-! ## Lines -/

namespace Text

/-- The line that a place of a text is on: whole lines come before it, and `front` is the part
of it in front of the place, which is a number of bytes. -/
structure OnLine (source : String) (position : Nat) (earlier front back : String) : Prop where
  source_eq : source = earlier ++ front ++ back
  position_eq : position = (earlier ++ front).utf8ByteSize
  earlier_whole : WholeLines earlier
  front_within : '\n' ∉ front.toList

/-- A text is whole lines and one that is not ended, perhaps empty. -/
theorem exists_lastLine (text : String) :
    ∃ earlier line, text = earlier ++ line ∧ WholeLines earlier ∧ '\n' ∉ line.toList := by
  -- The last line is the longest run without a newline, seen from the end.
  obtain ⟨line, earlier, htext, hrun⟩ : ∃ line earlier, text.toList.reverse = line ++ earlier ∧
      MaximalRun (· ≠ '\n') [] line earlier :=
    ⟨_, _, (List.takeWhile_append_dropWhile).symm, maximalRun_takeWhile _ nofun⟩
  refine ⟨.ofList earlier.reverse, .ofList line.reverse, ?_, ?_, ?_⟩
  · rw [← String.ofList_append, ← List.reverse_append, ← htext, List.reverse_reverse,
      String.ofList_toList]
  · intro c hc
    have hhead : c ∈ earlier.head? := by simpa using hc
    simpa using hrun.after c hhead
  · intro hmem
    have hline : '\n' ∈ line := by simpa using hmem
    simpa using hrun.all _ hline

/-- Without a newline no line is whole. -/
theorem WholeLines.eq_empty {text : String} (h : WholeLines text) (hmem : '\n' ∉ text.toList) :
    text = "" := by
  rcases hlast : text.toList.getLast? with _ | c
  · simpa using hlast
  · obtain rfl := h c hlast
    exact absurd (List.mem_of_getLast? hlast) hmem

/-- Nothing comes before the last line just if the text is one line. -/
theorem OnLine.earlier_eq_empty_iff {source earlier front back : String} {position : Nat}
    (h : OnLine source position earlier front back) (hback : '\n' ∉ back.toList) :
    earlier = "" ↔ '\n' ∉ source.toList := by
  constructor
  · rintro rfl
    simp [h.source_eq, h.front_within, hback]
  · intro hsource
    apply h.earlier_whole.eq_empty
    intro hmem
    exact hsource (by simp [h.source_eq, hmem])

theorem LinesOf.newline_not_mem {text line : List Char} {lines : List (List Char)}
    (h : LinesOf text lines) (hline : line ∈ lines) : '\n' ∉ line := by
  induction h with
  | nil => cases hline
  | last hne hend =>
    obtain rfl := List.mem_singleton.mp hline
    exact hend
  | newline hfirst _ _ ih | returnNewline hfirst _ ih =>
    rcases List.mem_cons.mp hline with rfl | hline
    · exact hfirst
    · exact ih hline

end Text

/-- An expression of a text is within one line. -/
theorem newline_not_mem_of_mem_expressions {text source : String} (h : source ∈ expressions text) :
    '\n' ∉ source.toList := by
  obtain ⟨line, hline, rfl⟩ := List.mem_map.mp (List.mem_filter.mp h).1
  obtain ⟨front, back, htext, -, -⟩ := (Text.trimmed_trim line).exists_ends
  have hnone : '\n' ∉ line.toList :=
    (Text.linesOf_lines text).newline_not_mem (List.mem_map_of_mem hline)
  intro hmem
  exact hnone (by simp [htext, hmem])

/-! ## Reports of errors -/

section

variable {settings : Settings} {source : String} {error : Error} {column : Nat}

/-- The error is at a place of the text: on some line, in front of a character or of its end. -/
theorem exists_onLine (h : (attempt settings source).result = .error error) :
    ∃ position earlier front back, error.position = some position ∧
      Text.OnLine source position earlier front back := by
  rw [result_attempt] at h
  have hpoints : error.PointsInto source := by
    rcases interpret_eq_error h with ⟨cause, hparse, rfl⟩ | ⟨tree, cause, hparse, hevaluate, rfl⟩
    · exact Source.pointsInto_of_parse hparse
    · obtain ⟨lexemes, nest, hexpresses, -, -⟩ := Source.exists_expresses hparse
      exact Source.pointsInto_of_evaluate hexpresses hevaluate
  obtain ⟨before, back, htext, hposition, -⟩ := hpoints
  obtain ⟨earlier, front, hbefore, hwhole, hfront⟩ := Text.exists_lastLine (.ofList before)
  have hsource : source = earlier ++ front ++ .ofList back := by
    rw [← hbefore, ← String.ofList_append, ← htext, String.ofList_toList]
  have hsize : Text.byteLength before = (earlier ++ front).utf8ByteSize := by
    rw [← hbefore, ← Text.byteLength_toList, String.toList_ofList]
  exact ⟨_, earlier, front, .ofList back, hposition, hsource, hsize, hwhole, hfront⟩

/-- Below the log, the report shows the error: the text, the caret with `column` spaces in
front of it on the next line, and the message. -/
def CaretAt (settings : Settings) (source : String) (error : Error) (column : Nat) : Prop :=
  (report settings source).2.err = (attempt settings source).output.err ++
    (source ++ "\n" ++ (String.ofList (List.replicate column ' ') ++ "^") ++ "\n" ++
      error.message ++ "\n")

instance : Decidable (CaretAt settings source error column) :=
  inferInstanceAs (Decidable (_ = _))

/-- The caret stands behind as many columns as there are characters in front of the place, on
its own line and on the lines before it. -/
theorem caretAt_iff {position : Nat} {earlier front back : String}
    (h : (attempt settings source).result = .error error)
    (hposition : error.position = some position)
    (honLine : Text.OnLine source position earlier front back) :
    CaretAt settings source error column ↔ column = earlier.length + front.length := by
  have hcolumn : Text.column? position source.toList = some (earlier.length + front.length) := by
    rw [honLine.source_eq, honLine.position_eq, String.toList_append, ← Text.byteLength_toList,
      Text.column?_byteLength, String.length_toList, String.length_append]
  have herr : CaretAt settings source error (earlier.length + front.length) := by
    simp only [CaretAt, report, h, Output.err_append, Output.err_ofErr, errorText, hposition,
      caretLine, hcolumn, Option.getD_some, String.append_assoc]
  constructor
  · intro hcaret
    -- All else being the same, the two lines are equally long.
    have hlength := congrArg String.length (hcaret.symm.trans herr)
    simp only [String.length_append, String.length_ofList, List.length_replicate] at hlength
    omega
  · rintro rfl
    exact herr

/-- Every error that is reported is on some line of the text. The caret is as many columns to
the right of the place on this line as there are characters in the lines before it. So where
the line is the last one, the caret is under the place just if it is the only one. -/
theorem report_caret_iff (h : (attempt settings source).result = .error error) :
    (∃ position earlier front back, error.position = some position ∧
      Text.OnLine source position earlier front back) ∧
    ∀ {position earlier front back}, error.position = some position →
      Text.OnLine source position earlier front back →
        (∀ column, CaretAt settings source error column ↔
          column = earlier.length + front.length) ∧
        ('\n' ∉ back.toList →
          (CaretAt settings source error front.length ↔ '\n' ∉ source.toList)) := by
  refine ⟨exists_onLine h, ?_⟩
  intro position earlier front back hposition honLine
  have hcaret (column : Nat) : CaretAt settings source error column ↔
      column = earlier.length + front.length := caretAt_iff h hposition honLine
  refine ⟨hcaret, ?_⟩
  intro hback
  rw [hcaret, ← honLine.earlier_eq_empty_iff hback, ← String.length_eq_zero_iff]
  omega

/-- A parenthesis is missed at the end of the second line, two columns from its start. -/
theorem report_caret_iff_two_lines :
    let error := Error.parse (.unexpectedToken [.rparen] .eof 7)
    (attempt .default "(1 +\n2 ").result = .error error ∧
      Text.OnLine "(1 +\n2 " 7 "(1 +\n" "2 " "" ∧
      CaretAt .default "(1 +\n2 " error 7 ∧ ¬ CaretAt .default "(1 +\n2 " error 2 := by
  intro error
  have herror : (attempt .default "(1 +\n2 ").result = .error error := by decide +kernel
  have honLine : Text.OnLine "(1 +\n2 " 7 "(1 +\n" "2 " "" :=
    ⟨rfl, rfl, .newline "(1 +", by decide⟩
  obtain ⟨hcaret, hlast⟩ := (report_caret_iff herror).2 rfl honLine
  exact ⟨herror, honLine, (hcaret 7).mpr rfl, fun h => (hlast (by decide)).mp h (by decide)⟩

/-- An error at the start of the third line: no character is in front of it on this line, but
four are in front of the caret. -/
theorem caret_astray :
    let error := Error.lex (.unexpectedCharacter '$' 4)
    (attempt .default "1\n+\n$").result = .error error ∧ error.position = some 4 ∧
      Text.OnLine "1\n+\n$" 4 "1\n+\n" "" "$" ∧ '\n' ∉ "$".toList ∧
      CaretAt .default "1\n+\n$" error 4 ∧ ¬ CaretAt .default "1\n+\n$" error "".length := by
  intro error
  have honLine : Text.OnLine "1\n+\n$" 4 "1\n+\n" "" "$" :=
    ⟨rfl, rfl, .newline "1\n+", by decide⟩
  exact ⟨by decide +kernel, rfl, honLine, by decide, by decide +kernel, by decide +kernel⟩

/-- The expressions of a file are one line each, so the caret is under the place. -/
theorem caretAt_of_mem_expressions {text : String} (hsource : source ∈ expressions text)
    (h : (attempt settings source).result = .error error) :
    ∃ position front back, error.position = some position ∧
      Text.OnLine source position "" front back ∧ CaretAt settings source error front.length := by
  obtain ⟨position, earlier, front, back, hposition, honLine⟩ := exists_onLine h
  obtain rfl : earlier = "" := by
    apply honLine.earlier_whole.eq_empty
    intro hmem
    exact newline_not_mem_of_mem_expressions hsource (by simp [honLine.source_eq, hmem])
  refine ⟨position, front, back, hposition, honLine, (caretAt_iff h hposition honLine).mpr ?_⟩
  exact (Nat.zero_add _).symm

end

end Abacus
