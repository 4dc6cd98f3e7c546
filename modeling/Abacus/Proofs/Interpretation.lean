import Abacus.Interpret
import Abacus.Proofs.Parser.Acceptance
import Abacus.Proofs.Stream

/-!
# Source texts as expressions

The stages put together: a text, its lexemes, its tree and its value.

* `Source.Expresses` — a text is read to its end, and its lexemes are an expression
  with the given tree.
* `Source.Expresses.parse_ofSource`, `Source.Expresses.interpret_source` — within the
  limits such a text is parsed as the tree and has the value of the tree.
* `Source.exists_expresses` — every text that is parsed is such a text.
* `interpret_eq_error` — where an error of a text comes from; `interpret_eq_lex`,
  `interpret_eq_parse`, `interpret_eq_eval` — the same for each stage.
-/

namespace Abacus

/-! ## Readings as feeds -/

namespace Feed

variable {lexeme : Lexeme} {lexemes used : List Lexeme} {tail : Item} {start position : Nat}

/-- Lexemes stand one place further back with one more lexeme in front. -/
theorem holds_followedBy_cons :
    (followedBy (lexeme :: lexemes).toArray tail).Holds (start + 1) used ↔
      (followedBy lexemes.toArray tail).Holds start used := by
  have hshift (i : Nat) : (followedBy (lexeme :: lexemes).toArray tail).item (start + 1 + i) =
      (followedBy lexemes.toArray tail).item (start + i) := by
    rw [Nat.add_right_comm]
    simp [followedBy]
  unfold Holds
  simp only [hshift]

/-- If the end of the input comes only after the lexemes, then whatever stands in front
of it is those lexemes. -/
theorem eq_of_holds_followedBy (hlexemes : ∀ lexeme ∈ lexemes, lexeme.token ≠ .eof)
    (htail : ∀ lexeme, tail = .ok lexeme → lexeme.token = .eof)
    (hused : ∀ lexeme ∈ used, lexeme.token ≠ .eof)
    (hholds : (followedBy lexemes.toArray tail).Holds 0 (used ++ [⟨.eof, position⟩])) :
    used = lexemes ∧ tail = .ok ⟨.eof, position⟩ := by
  induction lexemes generalizing used with
  | nil =>
    cases used with
    | nil =>
      obtain ⟨hitem, -⟩ := holds_cons.mp hholds
      exact ⟨rfl, Option.some.inj hitem⟩
    | cons first used =>
      obtain ⟨hitem, -⟩ := holds_cons.mp hholds
      exact absurd (htail first (Option.some.inj hitem)) (hused first (by simp))
  | cons lexeme lexemes ih =>
    cases used with
    | nil =>
      obtain ⟨hitem, -⟩ := holds_cons.mp hholds
      obtain rfl : lexeme = ⟨.eof, position⟩ := Except.ok.inj (Option.some.inj hitem)
      exact absurd rfl (hlexemes ⟨.eof, position⟩ (by simp))
    | cons first used =>
      obtain ⟨hitem, hrest⟩ := holds_cons.mp hholds
      obtain rfl : lexeme = first := Except.ok.inj (Option.some.inj hitem)
      obtain ⟨hsame, heof⟩ := ih (fun other h => hlexemes other (by simp [h]))
        (fun other h => hused other (by simp [h])) (holds_followedBy_cons.mp hrest)
      exact ⟨by rw [hsame], heof⟩

end Feed

namespace Source

/-- No lexeme of a reading is the end of the input. -/
theorem ne_eof_of_mem_scanFrom (offset : Nat) (cs : List Char) :
    ∀ lexeme ∈ (scanFrom offset cs).lexemes, lexeme.token ≠ .eof := by
  induction offset, cs using scanFrom_induction with
  | nil offset => simp
  | blank offset c cs hblank ih => rwa [scanFrom_blank hblank]
  | mark offset c cs token hblank htoken ih =>
    have hne : token ≠ .eof := by
      rintro rfl
      unfold Token.ofChar? at htoken
      split at htoken <;> cases htoken
    rw [scanFrom_token hblank htoken]
    intro lexeme hlexeme
    rcases List.mem_cons.mp hlexeme with rfl | hrest
    · exact hne
    · exact ih lexeme hrest
  | integer offset c cs value hdigit hvalue ih =>
    rw [scanFrom_integer hdigit hvalue]
    intro lexeme hlexeme
    rcases List.mem_cons.mp hlexeme with rfl | hrest
    · exact Token.noConfusion
    · exact ih lexeme hrest
  | tooLarge offset c cs hdigit hvalue =>
    rw [scanFrom_tooLarge hdigit hvalue]
    simp
  | unexpected offset c cs hblank htoken hdigit =>
    rw [scanFrom_unexpected hblank htoken hdigit]
    simp

variable {source : String} {lexemes : List Lexeme} {tree : Expr} {nest position : Nat}

/-- The end of the input is met at the end of the text. -/
theorem eof_of_scan {lexeme : Lexeme} (h : (scan source).tail = .ok lexeme) :
    lexeme = ⟨.eof, source.utf8ByteSize⟩ := by
  have hwithin := within_scanFrom 0 source.toList
  rw [Nat.zero_add, Text.byteLength_toList] at hwithin
  exact hwithin.eof lexeme h

/-- A feed that starts with lexemes and the end of the input is that of a text which is
read as these lexemes. -/
theorem scan_eq_of_holds (hlexemes : ∀ lexeme ∈ lexemes, lexeme.token ≠ .eof)
    (hholds : (Feed.ofSource source).Holds 0 (lexemes ++ [⟨.eof, position⟩])) :
    scan source = ⟨lexemes, .ok ⟨.eof, source.utf8ByteSize⟩⟩ := by
  have htail : ∀ lexeme, (scan source).tail = .ok lexeme → lexeme.token = .eof := by
    intro lexeme h
    rw [eof_of_scan h]
  obtain ⟨hsame, heof⟩ :=
    Feed.eq_of_holds_followedBy (ne_eof_of_mem_scanFrom 0 _) htail hlexemes hholds
  rw [eof_of_scan heof] at heof
  rw [hsame, ← heof]
  rfl

/-! ## Expressions -/

/-- The text is read to its end, and its lexemes are an expression with the tree, with
`nest` as the greatest number of signs and parentheses around a factor. -/
structure Expresses (source : String) (lexemes : List Lexeme) (tree : Expr) (nest : Nat) :
    Prop where
  scan_eq : scan source = ⟨lexemes, .ok ⟨.eof, source.utf8ByteSize⟩⟩
  derives : Derives .expression lexemes tree nest

namespace Expresses

theorem of_scan (hlexemes : (scan source).lexemes = lexemes)
    (htail : (scan source).tail = .ok ⟨.eof, source.utf8ByteSize⟩)
    (hderives : Derives .expression lexemes tree nest) : Expresses source lexemes tree nest := by
  refine ⟨?_, hderives⟩
  rw [← hlexemes, ← htail]

theorem holds (h : Expresses source lexemes tree nest) :
    (Feed.ofSource source).Holds 0 (lexemes ++ [⟨.eof, source.utf8ByteSize⟩]) := by
  rw [Feed.ofSource, h.scan_eq]
  exact Feed.holds_followedBy _ _

/-- Within the limits, a text that expresses a tree is parsed as this tree. -/
theorem parse_ofSource (h : Expresses source lexemes tree nest) (hnest : nest ≤ maxNesting)
    (hdepth : tree.depth ≤ maxDepth) : parse (.ofSource source) = .ok tree := by
  rw [parse, h.derives.parseFrom_run hnest hdepth h.holds]

/-- Within the limits, a text that expresses a tree has the value of the tree. -/
theorem interpret_source (h : Expresses source lexemes tree nest) (hnest : nest ≤ maxNesting)
    (hdepth : tree.depth ≤ maxDepth) :
    interpret source = tree.evaluate.mapError Error.eval := by
  rw [interpret_eq, h.parse_ofSource hnest hdepth]
  dsimp only
  cases tree.evaluate <;> rfl

end Expresses

/-- A text that is parsed is an expression within the limits. -/
theorem exists_expresses (hparse : parse (.ofSource source) = .ok tree) :
    ∃ lexemes nest, Expresses source lexemes tree nest ∧ nest ≤ maxNesting ∧
      tree.depth ≤ maxDepth := by
  have houtcome := parse_outcome (.ofSource source)
  rw [hparse] at houtcome
  cases houtcome with
  | @accepted used _ nest position hholds hderives hnest hdepth =>
    have hne := Point.ne_eof_of_walk (hderives.walk 0)
    exact ⟨used, nest, ⟨scan_eq_of_holds hne hholds, hderives⟩, hnest, hdepth⟩

end Source

/-- An error of a text is one of its parsing or one of its tree. -/
theorem interpret_eq_error {source : String} {error : Error}
    (h : interpret source = .error error) :
    (∃ cause, parse (.ofSource source) = .error cause ∧ error = .ofParseError cause) ∨
      ∃ tree cause, parse (.ofSource source) = .ok tree ∧ tree.evaluate = .error cause ∧
        error = .eval cause := by
  rw [interpret_eq] at h
  rcases hparse : parse (.ofSource source) with cause | tree
  · rw [hparse] at h
    exact .inl ⟨cause, rfl, (Except.error.inj h).symm⟩
  · rw [hparse] at h
    rcases heval : tree.evaluate with cause | value
    · simp only [heval] at h
      exact .inr ⟨tree, cause, rfl, heval, (Except.error.inj h).symm⟩
    · simp only [heval] at h
      cases h

section Stages

variable {source : String}

/-- The lexical errors of a text are those met by the parser. -/
theorem interpret_eq_lex {error : LexError} : interpret source = .error (.lex error) ↔
    parse (.ofSource source) = .error (.lexical error) := by
  constructor
  · intro h
    rcases interpret_eq_error h with ⟨cause, hparse, hcause⟩ | ⟨tree, cause, -, -, hcause⟩
    · obtain rfl : cause = .lexical error := by cases cause <;> cases hcause; rfl
      exact hparse
    · cases hcause
  · intro h
    rw [interpret_eq, h]
    rfl

/-- A parse error of a text is one of the parser, and not the error of a token. -/
theorem interpret_eq_parse {cause : ParseError} (h : interpret source = .error (.parse cause)) :
    parse (.ofSource source) = .error cause ∧ ∀ error, cause ≠ .lexical error := by
  rcases interpret_eq_error h with ⟨other, hparse, hcause⟩ | ⟨tree, other, -, -, hcause⟩
  · cases other <;> cases hcause <;> exact ⟨hparse, nofun⟩
  · cases hcause

theorem interpret_eq_eval {cause : EvalError} (h : interpret source = .error (.eval cause)) :
    ∃ tree, parse (.ofSource source) = .ok tree ∧ tree.evaluate = .error cause := by
  rcases interpret_eq_error h with ⟨other, -, hcause⟩ | ⟨tree, other, hparse, hevaluate, hcause⟩
  · cases other <;> cases hcause
  · obtain rfl : cause = other := by simpa using hcause
    exact ⟨tree, hparse, hevaluate⟩

end Stages

end Abacus
