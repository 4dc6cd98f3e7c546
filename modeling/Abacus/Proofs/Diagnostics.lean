import Abacus.Proofs.Evaluation
import Abacus.Proofs.Grammar.Listing
import Abacus.Proofs.Interpretation
import Abacus.Proofs.Lexemes
import Abacus.Proofs.Printing

/-!
# Errors and the places they name

* `Expr.exists_isAt_of_evaluate` — a tree without a value has an operator at fault, or is
  one literal.
* `Source.LoneLiteral` — an integer with nothing around it but blanks and parentheses.
* `NamesPlace` — a message says where the error is.
* `Error.Describes` — what an error says about the characters at its place and in front
  of it.
* `Error.PointsInto` — an error is at a place of a text and describes what stands there.
* `Source.pointsInto_of_parse`, `Source.pointsInto_of_evaluate` — the errors of the stages
  do so.
* `interpret_error_points` — so does every error of a text, and its message names the
  place.
-/

namespace Abacus

/-! ## Nodes at fault -/

theorem Derives.wellFormed {level : Level} {lexemes : List Lexeme} {tree : Expr} {nest : Nat}
    (h : Derives level lexemes tree nest) : tree.WellFormed := by
  induction h with
  | integer value position => rfl
  | sign hop _ ih => exact ⟨hop, ih⟩
  | group _ ih => exact ih
  | single _ _ ih => exact ih
  | operator _ _ hop _ ihl ihr =>
    exact ⟨by simpa [Token.isOperator] using Level.isOperator hop, ihl, ihr⟩

namespace Expr

variable {tree node : Expr} {error : EvalError}

/-- The nodes that are visited are those that are written. -/
theorem lexeme_mem_of_mem_postorder (h : node ∈ tree.postorder) : node.lexeme ∈ tree.inorder := by
  induction tree with
  | literal => simp_all [postorder, lexeme, inorder]
  | unary op operand position ih =>
    rcases List.mem_append.mp h with h | h
    · exact List.mem_cons_of_mem _ (ih h)
    · obtain rfl := List.mem_singleton.mp h
      exact lexeme_mem_inorder _
  | binary op left right position ihl ihr =>
    simp only [postorder, List.mem_append, List.mem_singleton] at h
    rcases h with (h | h) | rfl
    · exact List.mem_append_left _ (ihl h)
    · exact List.mem_append_right _ (List.mem_cons_of_mem _ (ihr h))
    · exact lexeme_mem_inorder _

theorem WellFormed.of_mem_postorder (hwf : tree.WellFormed) (h : node ∈ tree.postorder) :
    node.WellFormed := by
  induction tree with
  | literal =>
    obtain rfl := List.mem_singleton.mp h
    exact hwf
  | unary op operand position ih =>
    rcases List.mem_append.mp h with h | h
    · exact ih hwf.2 h
    · obtain rfl := List.mem_singleton.mp h
      exact hwf
  | binary op left right position ihl ihr =>
    simp only [postorder, List.mem_append, List.mem_singleton] at h
    rcases h with (h | h) | rfl
    · exact ihl hwf.2.1 h
    · exact ihr hwf.2.2 h
    · exact hwf

end Expr

/-- The token at the place of the error is at fault: a division by zero is at a `/`, and
an overflow at some operator. -/
inductive EvalError.IsAt : EvalError → Lexeme → Prop where
  | divisionByZero (position : Nat) : IsAt (.divisionByZero position) ⟨.divide, position⟩
  | overflow {op : Token} (hop : op.isOperator) (position : Nat) :
    IsAt (.overflow position) ⟨op, position⟩

namespace Expr

variable {tree node : Expr} {error : EvalError}

theorem overflow?_isAt {op : Token} {position : Nat} {value : Option Int} (hop : op.isOperator)
    (h : value.bind (overflow? · position) = some error) : error.IsAt ⟨op, position⟩ := by
  obtain ⟨value, -, hvalue⟩ := Option.bind_eq_some_iff.mp h
  unfold overflow? at hvalue
  split at hvalue
  · cases hvalue
  · obtain rfl := Option.some.inj hvalue
    exact .overflow hop position

/-- A node with a token that the parser could have given it is at fault only where its
token is an operator. -/
theorem fault?_isAt (hwf : node.WellFormed) (h : node.fault? = some error) :
    error.IsAt node.lexeme := by
  cases node with
  | literal token position =>
    cases token with
    | integer => cases h
    | _ => cases hwf
  | unary op operand position =>
    rw [fault?, if_pos hwf.1] at h
    exact overflow?_isAt (Token.isOperator_of_isAdditive hwf.1) h
  | binary op left right position =>
    have hop : op.isOperator := by
      simpa [Token.isOperator] using hwf.1
    have hkind : op.isAdditive || op.isMultiplicative := hop
    rw [fault?, if_pos hkind] at h
    split at h
    · rename_i hzero
      obtain rfl := Option.some.inj h
      obtain ⟨rfl, -⟩ := hzero
      exact .divisionByZero position
    · exact overflow?_isAt hop h

/-- A tree without a value has an operator that is at fault, or is a literal that is too
large. -/
theorem exists_isAt_of_evaluate (hwf : tree.WellFormed) (h : tree.evaluate = .error error) :
    (∃ lexeme ∈ tree.inorder, error.IsAt lexeme) ∨
      tree.IsLiteral ∧ error = .overflow tree.position := by
  rw [evaluate_eq] at h
  rcases hwalk : tree.walk.outcome with fault | value
  · have hfirst := tree.agrees_walk
    rw [hwalk] at h hfirst
    obtain rfl : fault = error := Except.error.inj h
    obtain ⟨node, hnode, hfault⟩ := List.exists_of_findSome?_eq_some hfirst
    exact .inl ⟨node.lexeme, lexeme_mem_of_mem_postorder hnode,
      fault?_isAt (hwf.of_mem_postorder hnode) hfault⟩
  · rw [hwalk] at h
    have hexact : exact value.toInt tree.position = .error error := h
    by_cases htree : tree.IsLiteral
    · refine .inr ⟨htree, ?_⟩
      unfold exact at hexact
      split at hexact <;> cases hexact
      rfl
    · rw [exact, if_pos (fits_of_walk hwalk htree)] at hexact
      cases hexact

end Expr

/-! ## Literals that stand alone -/

namespace Source

open Text (byteLength)

/-- Blanks and parentheses. -/
def isFiller (c : Char) : Bool :=
  c ∈ separators || c = '(' || c = ')'

/-- The characters `back`, in front of which `front` stands, start with an integer, and
all around it are blanks and parentheses. -/
def LoneLiteral (front back : List Char) : Prop :=
  ∃ value literal after, back = literal ++ after ∧ Spells front after literal (.integer value) ∧
    ∀ c ∈ front ++ after, isFiller c

variable {before after chars : List Char} {token : Token} {pieces : List Piece} {offset : Nat}
  {lexeme : Lexeme}

theorem isFiller_of_mem_separators {c : Char} (h : c ∈ separators) : isFiller c := by
  simp [isFiller, h]

theorem Spells.isFiller (h : Spells before after chars token) (htoken : token.isParenthesis) :
    ∀ c ∈ chars, isFiller c := by
  cases h with
  | mark hmark =>
    simp only [marks, List.mem_cons, Prod.mk.injEq, List.not_mem_nil, or_false] at hmark
    rcases hmark with ⟨rfl, rfl⟩ | ⟨rfl, rfl⟩ | ⟨rfl, rfl⟩ | ⟨rfl, rfl⟩ | ⟨rfl, rfl⟩ | ⟨rfl, rfl⟩
    iterate 4 cases htoken
    all_goals simp [Source.isFiller]
  | integer => cases htoken

/-- Without meaningful lexemes there are only blanks and parentheses. -/
theorem Fits.isFiller_of_none (h : Fits [] before pieces)
    (hnone : meaningful (lexemesOf offset pieces) = []) : ∀ c ∈ textOf pieces, isFiller c := by
  induction h generalizing offset with
  | stop => simp
  | @piece before piece pieces hlexeme hblanks _ ih =>
    rw [lexemesOf_cons] at hnone
    by_cases htoken : piece.token.isParenthesis
    · rw [meaningful_of_isParenthesis htoken] at hnone
      intro c hc
      rw [textOf_cons, List.mem_append, List.mem_append] at hc
      rcases hc with hc | hc | hc
      · exact hlexeme.isFiller htoken c hc
      · exact isFiller_of_mem_separators (hblanks.mem c hc)
      · exact ih hnone c hc
    · rw [meaningful_cons htoken] at hnone
      cases hnone

/-- With a single meaningful lexeme there are only blanks and parentheses around its
characters. -/
theorem Fits.exists_lone (h : Fits [] before pieces)
    (hone : meaningful (lexemesOf offset pieces) = [lexeme]) :
    ∃ front chars after, textOf pieces = front ++ (chars ++ after) ∧
      lexeme.position = offset + byteLength front ∧
      Spells (before ++ front) after chars lexeme.token ∧ ∀ c ∈ front ++ after, isFiller c := by
  induction h generalizing offset with
  | stop => cases hone
  | @piece before piece pieces hlexeme hblanks hafter ih =>
    rw [lexemesOf_cons] at hone
    by_cases htoken : piece.token.isParenthesis
    · rw [meaningful_of_isParenthesis htoken] at hone
      obtain ⟨front, chars, after, htext, hposition, hspells, hfiller⟩ := ih hone
      refine ⟨piece.lexeme ++ (piece.blanks ++ front), chars, after, by simp [htext], ?_,
        by simpa using hspells, ?_⟩
      · simp only [Text.byteLength_append]
        omega
      · intro c hc
        simp only [List.append_assoc, List.mem_append] at hc hfiller
        rcases hc with hc | hc | hc
        · exact hlexeme.isFiller htoken c hc
        · exact isFiller_of_mem_separators (hblanks.mem c hc)
        · exact hfiller c hc
    · rw [meaningful_cons htoken] at hone
      obtain ⟨rfl, hnone⟩ := List.cons.inj hone
      refine ⟨[], piece.lexeme, piece.blanks ++ textOf pieces, by simp, by simp,
        by simpa using hlexeme, ?_⟩
      intro c hc
      rw [List.nil_append, List.mem_append] at hc
      rcases hc with hc | hc
      · exact isFiller_of_mem_separators (hblanks.mem c hc)
      · exact hafter.isFiller_of_none hnone c hc

/-- The text of a tree that is one literal holds nothing but the literal, blanks and
parentheses. -/
theorem Expresses.exists_loneLiteral {source : String} {lexemes : List Lexeme} {tree : Expr}
    {nest : Nat} (h : Expresses source lexemes tree nest) (htree : tree.IsLiteral) :
    ∃ front back, source.toList = front ++ back ∧ tree.position = byteLength front ∧
      LoneLiteral front back := by
  cases tree with
  | literal token position =>
    obtain ⟨d⟩ := Decomposition.exists_of_text source.toList
    obtain ⟨hrest, rfl⟩ := d.eq_of_scan h.scan_eq
    obtain ⟨front, chars, after, htext, hposition, hspells, hfiller⟩ :=
      Fits.exists_lone (hrest ▸ d.fits) h.derives.inorder_eq.symm
    have hkind : token.kind = .integer := h.derives.wellFormed
    obtain ⟨value, rfl⟩ : ∃ value, token = .integer value := by
      cases token with
      | integer value => exact ⟨value, rfl⟩
      | _ => cases hkind
    refine ⟨d.blanks ++ front, chars ++ after, ?_, ?_, value, chars, after, rfl, hspells, ?_⟩
    · refine d.text_eq.symm.trans ?_
      rw [hrest, List.append_nil, htext, List.append_assoc]
    · rw [Text.byteLength_append]
      exact hposition
    · intro c hc
      simp only [List.append_assoc, List.mem_append] at hc hfiller
      rcases hc with hc | hc
      · exact isFiller_of_mem_separators (d.blanks_maximal.mem c hc)
      · exact hfiller c hc
  | _ => cases htree

end Source

/-! ## Messages -/

/-- The text says "at position", the position and a colon. -/
def NamesPlace (position : Nat) (text : String) : Prop :=
  ∃ before after, text = before ++ "at position " ++ toString position ++ ":" ++ after

namespace NamesPlace

variable {position : Nat} {text : String}

theorem append (h : NamesPlace position text) (rest : String) :
    NamesPlace position (text ++ rest) := by
  obtain ⟨before, after, rfl⟩ := h
  exact ⟨before, after ++ rest, String.append_assoc⟩

theorem of_front (front : String) :
    NamesPlace position (front ++ "at position " ++ toString position ++ ": ") := by
  have hcolon : ": " = ":" ++ " " := rfl
  refine ⟨front, " ", ?_⟩
  rw [hcolon, ← String.append_assoc]

theorem errorAt (position : Nat) : NamesPlace position (errorAt position) :=
  of_front "Error "

end NamesPlace

theorem LexError.namesPlace_message (error : LexError) :
    NamesPlace error.position error.message := by
  cases error with
  | unexpectedCharacter character position =>
    exact (((NamesPlace.errorAt position).append _).append _).append _
  | literalTooLarge literal position =>
    exact (((NamesPlace.errorAt position).append _).append _).append _

theorem ParseError.namesPlace_message {error : ParseError} {position : Nat}
    (h : error.position = some position) : NamesPlace position error.message := by
  cases error with
  | unexpectedToken =>
    obtain rfl := Option.some.inj h
    exact (((((NamesPlace.errorAt _).append _).append _).append _).append _).append _
  | unexpectedTrailingTokens =>
    obtain rfl := Option.some.inj h
    exact (((NamesPlace.errorAt _).append _).append _).append _
  | nestingTooDeep =>
    obtain rfl := Option.some.inj h
    exact (NamesPlace.errorAt _).append _
  | unexpectedEndOfInput => cases h
  | lexical error =>
    obtain rfl := Option.some.inj h
    exact error.namesPlace_message

theorem EvalError.namesPlace_message (error : EvalError) :
    NamesPlace error.position error.message := by
  cases error with
  | divisionByZero position => exact (NamesPlace.errorAt position).append _
  | overflow position => exact (NamesPlace.errorAt position).append _
  | internal details position =>
    exact ((NamesPlace.of_front "Internal error ").append _).append _

/-- The message of an error that has a place names it. -/
theorem Error.namesPlace_message {error : Error} {position : Nat}
    (h : error.position = some position) : NamesPlace position error.message := by
  cases error with
  | lex error => exact Option.some.inj h ▸ error.namesPlace_message
  | parse error => exact ParseError.namesPlace_message h
  | eval error => exact Option.some.inj h ▸ error.namesPlace_message

/-! ## What errors say -/

namespace Error

open Source (Names LoneLiteral)

/-- What the error says is so where the characters `back` stand at its place and `front`
in front of it. -/
def Describes (front back : List Char) : Error → Prop
  | .lex error => Names front back (.error error)
  | .parse (.unexpectedToken _ found position) => Names front back (.ok ⟨found, position⟩)
  | .parse (.unexpectedTrailingTokens found position) =>
    Names front back (.ok ⟨found, position⟩)
  | .parse (.nestingTooDeep position) => ∃ token, Names front back (.ok ⟨token, position⟩)
  | .eval (.divisionByZero _) => back.head? = some '/'
  | .eval (.overflow _) =>
    (∃ c ∈ ['+', '-', '*', '/'], back.head? = some c) ∨ LoneLiteral front back
  -- No text has one of these.
  | .parse .unexpectedEndOfInput | .parse (.lexical _) | .eval (.internal _ _) => False

/-- The error is at a place of the text, and what it says about that place is so. -/
def PointsInto (error : Error) (source : String) : Prop :=
  ∃ front back, source.toList = front ++ back ∧
    error.position = some (Text.byteLength front) ∧ error.Describes front back

end Error

namespace Source

variable {source : String} {error : Error}

/-- An error about an item of the text, at the place of the item, points into the text. -/
theorem pointsInto_of_item {n : Nat} {item : Item}
    (hitem : (Feed.ofSource source).item n = some item)
    (hposition : error.position = some (itemPosition item))
    (hdescribes : ∀ front back, Names front back item → error.Describes front back) :
    error.PointsInto source := by
  obtain ⟨front, back, htext, hplace, hnames⟩ := exists_cut hitem
  exact ⟨front, back, htext, by rw [hposition, hplace], hdescribes front back hnames⟩

/-- An error about a lexeme of the text, at the place of the lexeme, points into the text. -/
theorem pointsInto_of_mem {lexemes : List Lexeme} {lexeme : Lexeme}
    (hholds : (Feed.ofSource source).Holds 0 lexemes) (hmem : lexeme ∈ lexemes)
    (hposition : error.position = some lexeme.position)
    (hdescribes : ∀ front back, Names front back (.ok lexeme) → error.Describes front back) :
    error.PointsInto source := by
  obtain ⟨n, hlt, rfl⟩ := List.getElem_of_mem hmem
  exact pointsInto_of_item (hholds n hlt) hposition hdescribes

/-- Where an operator stands, its character comes next. -/
theorem Names.exists_mark {front back : List Char} {op : Token} {position : Nat}
    (h : Names front back (.ok ⟨op, position⟩)) (hop : op.isOperator) :
    ∃ c, back.head? = some c ∧ (c, op) ∈ marks := by
  rcases h with ⟨chars, after, rfl, hspells⟩ | ⟨-, rfl⟩
  · cases hspells with
    | mark hmark => exact ⟨_, rfl, hmark⟩
    | integer => cases hop
  · cases hop

/-- The errors of the parser point into the text. -/
theorem pointsInto_of_parse {cause : ParseError}
    (hparse : parse (.ofSource source) = .error cause) :
    (Error.ofParseError cause).PointsInto source := by
  have houtcome := parse_outcome (.ofSource source)
  rw [hparse] at houtcome
  cases houtcome with
  | trailing _ _ hitem => exact pointsInto_of_item hitem rfl fun _ _ => id
  | failed h =>
    cases h with
    | unexpected _ _ hitem => exact pointsInto_of_item hitem rfl fun _ _ => id
    | lexical _ _ hitem => exact pointsInto_of_item hitem rfl fun _ _ => id
    | ended _ _ hitem =>
      -- The feed of a text never ends.
      cases hitem
    | nested _ _ hitem => exact pointsInto_of_item hitem rfl fun _ _ h => ⟨_, h⟩
    | tall hholds hhigh =>
      -- The operator is among the lexemes that were just used.
      exact pointsInto_of_mem hholds hhigh.op_mem rfl fun _ _ h => ⟨_, h⟩

/-- The errors of the evaluator point into the text. -/
theorem pointsInto_of_evaluate {lexemes : List Lexeme} {tree : Expr} {nest : Nat}
    {cause : EvalError} (h : Expresses source lexemes tree nest)
    (hevaluate : tree.evaluate = .error cause) : (Error.eval cause).PointsInto source := by
  rcases Expr.exists_isAt_of_evaluate h.derives.wellFormed hevaluate with
    ⟨lexeme, hlexeme, hat⟩ | ⟨htree, rfl⟩
  · have hmem := List.mem_append_left [⟨.eof, source.utf8ByteSize⟩]
      (h.derives.mem_of_mem_inorder hlexeme)
    cases hat with
    | divisionByZero position =>
      refine pointsInto_of_mem h.holds hmem rfl ?_
      intro front back hnames
      obtain ⟨c, hhead, hmark⟩ := hnames.exists_mark rfl
      obtain rfl : c = '/' := by simpa [marks] using hmark
      exact hhead
    | @overflow op hop position =>
      refine pointsInto_of_mem h.holds hmem rfl ?_
      intro front back hnames
      obtain ⟨c, hhead, hmark⟩ := hnames.exists_mark hop
      refine .inl ⟨c, ?_, hhead⟩
      cases op with
      | plus | minus | times | divide => simp_all [marks]
      | _ => cases hop
  · obtain ⟨front, back, htext, hposition, hlone⟩ := h.exists_loneLiteral htree
    exact ⟨front, back, htext, congrArg some hposition, .inr hlone⟩

end Source

/-- Every error of a text is at a place of the text: a number of bytes after which a
character or the end of the text comes. What the error says about the characters there
is so, its message names the place, and the caret under the text can be put there. -/
theorem interpret_error_points {source : String} {error : Error}
    (h : interpret source = .error error) :
    ∃ front back : String, source = front ++ back ∧
      error.position = some front.utf8ByteSize ∧ front.utf8ByteSize ≤ source.utf8ByteSize ∧
      error.Describes front.toList back.toList ∧
      NamesPlace front.utf8ByteSize error.message ∧
      Text.column? front.utf8ByteSize source.toList = some front.length := by
  have hpoints : error.PointsInto source := by
    rcases interpret_eq_error h with ⟨cause, hparse, rfl⟩ | ⟨tree, cause, hparse, hevaluate, rfl⟩
    · exact Source.pointsInto_of_parse hparse
    · obtain ⟨lexemes, nest, hexpresses, -, -⟩ := Source.exists_expresses hparse
      exact Source.pointsInto_of_evaluate hexpresses hevaluate
  obtain ⟨front, back, htext, hposition, hdescribes⟩ := hpoints
  have hsource : source = String.ofList front ++ String.ofList back := by
    rw [← String.ofList_append, ← htext, String.ofList_toList]
  have hsize : (String.ofList front).utf8ByteSize = Text.byteLength front := by
    rw [← Text.byteLength_toList, String.toList_ofList]
  refine ⟨.ofList front, .ofList back, hsource, by rw [hposition, hsize], ?_, ?_, ?_, ?_⟩
  · rw [hsource, String.utf8ByteSize_append]
    exact Nat.le_add_right _ _
  · simpa using hdescribes
  · exact Error.namesPlace_message (by rw [hposition, hsize])
  · rw [hsize, htext, Text.column?_byteLength]
    simp

/-- A zero divisor is reported at the division. -/
theorem interpret_error_points_zero_divisor :
    interpret "7 / (2 - 2)" = .error (.eval (.divisionByZero 2)) ∧
      ∃ front back : String, "7 / (2 - 2)" = front ++ back ∧ front.utf8ByteSize = 2 ∧
        back.toList.head? = some '/' := by
  have herror : interpret "7 / (2 - 2)" = .error (.eval (.divisionByZero 2)) := by
    decide +kernel
  obtain ⟨front, back, htext, hposition, -, hdescribes, -⟩ := interpret_error_points herror
  exact ⟨herror, front, back, htext, (Option.some.inj hposition).symm, hdescribes⟩

end Abacus
