import Abacus.Proofs.Decomposition
import Abacus.Proofs.Grammar.Listing
import Abacus.Proofs.Grammar.Prefix

/-!
# Items in their text

What the items of a source text have to do with the characters at their positions.

* `Source.Names` — an item is about the characters behind a cut through the text: it is
  the token that starts there, the end of the text, or an error of what starts there.
* `Source.exists_cut` — every item of a text is about the characters at its position.
* `Source.pairwise_scanFrom` — lexemes stand one behind the other.
* `Text.digitRuns`, `Text.Opens` — the runs of digits and the parentheses in a text.
  `Source.Fits.digitRuns_eq` and `Source.Fits.opens_of_walk` find them by lexemes.
-/

namespace Abacus

/-! ## Digits and parentheses in a text -/

namespace Text

/-- The number of runs of digits. Each is counted at its last digit. -/
def digitRuns : List Char → Nat
  | [] => 0
  | c :: cs => digitRuns cs + if c.isDigit && !cs.head?.any Char.isDigit then 1 else 0

/-- Where `opened` parentheses are open in front of the characters, they close none that
is not open, and `left` are open after them. -/
structure Opens (opened : Nat) (cs : List Char) (left : Nat) : Prop where
  count_eq : opened + cs.count '(' = left + cs.count ')'
  prefixes : ∀ front, front <+: cs → front.count ')' ≤ opened + front.count '('

/-- Each parenthesis that is closed was open, and each that was opened is closed. -/
def Balanced (cs : List Char) : Prop := Opens 0 cs 0

variable {cs firsts lasts : List Char}

theorem digitRuns_append (hcut : Source.Cut firsts lasts) :
    digitRuns (firsts ++ lasts) = digitRuns firsts + digitRuns lasts := by
  induction firsts with
  | nil => simp [digitRuns]
  | cons c firsts ih =>
    rw [List.cons_append, digitRuns, digitRuns, ih hcut.tail]
    cases firsts with
    | nil =>
      have hlast : c.isDigit → ¬ lasts.head?.any Char.isDigit := by
        intro hdigit hnext
        exact hcut ⟨⟨c, rfl, hdigit⟩, by simpa [Option.any_eq_true] using hnext⟩
      by_cases hdigit : c.isDigit
      · simp [digitRuns, hdigit, hlast hdigit, Nat.add_comm]
      · simp [digitRuns, hdigit]
    | cons d firsts =>
      rw [List.cons_append, List.head?_cons, List.head?_cons]
      omega

theorem digitRuns_append_of_none (h : ∀ c ∈ firsts, ¬ c.isDigit) :
    digitRuns (firsts ++ lasts) = digitRuns lasts := by
  induction firsts with
  | nil => rfl
  | cons c firsts ih =>
    have hc : ¬ c.isDigit := h c (by simp)
    simp [digitRuns, hc, ih fun d hd => h d (by simp [hd])]

theorem digitRuns_of_all (hne : cs ≠ []) (h : ∀ c ∈ cs, c.isDigit) : digitRuns cs = 1 := by
  induction cs with
  | nil => exact absurd rfl hne
  | cons c cs ih =>
    have hc : c.isDigit := h c (by simp)
    cases cs with
    | nil => simp [digitRuns, hc]
    | cons d cs =>
      have hd : d.isDigit := h d (by simp)
      rw [digitRuns, ih (List.cons_ne_nil _ _) fun e he => h e (List.mem_cons_of_mem _ he)]
      simp [hd]

namespace Opens

variable {opened next left : Nat}

theorem append (hfirst : Opens opened firsts next) (hlast : Opens next lasts left) :
    Opens opened (firsts ++ lasts) left where
  count_eq := by
    have := hfirst.count_eq
    have := hlast.count_eq
    simp only [List.count_append]
    omega
  prefixes front hfront := by
    rcases List.prefix_or_prefix_of_prefix hfront (List.prefix_append firsts lasts) with h | h
    · exact hfirst.prefixes front h
    · -- All of the first part and some of the second.
      obtain ⟨rest, rfl⟩ := h
      have hrest := hlast.prefixes rest (List.prefix_append_right_inj firsts |>.mp hfront)
      have := hfirst.count_eq
      simp only [List.count_append]
      omega

/-- Other characters leave the parentheses as they are. -/
theorem of_none (h : ∀ c ∈ cs, c ≠ '(' ∧ c ≠ ')') : Opens opened cs opened where
  count_eq := by
    rw [List.count_eq_zero.mpr fun hc => (h _ hc).1 rfl,
      List.count_eq_zero.mpr fun hc => (h _ hc).2 rfl]
  prefixes front hfront := by
    rw [List.count_eq_zero.mpr fun hc => (h _ (hfront.subset hc)).2 rfl]
    exact Nat.zero_le _

theorem lparen : Opens opened ['('] (opened + 1) where
  count_eq := rfl
  prefixes front hfront := by
    rcases List.prefix_cons_iff.mp hfront with rfl | ⟨rest, rfl, hrest⟩
    · simp
    · simp [List.prefix_nil.mp hrest]

theorem rparen : Opens (opened + 1) [')'] opened where
  count_eq := rfl
  prefixes front hfront := by
    rcases List.prefix_cons_iff.mp hfront with rfl | ⟨rest, rfl, hrest⟩
    · simp
    · simp [List.prefix_nil.mp hrest]

end Opens

end Text

namespace Point

/-- How many parentheses are open at `stop`, one token further than at `start`. -/
structure Opened (start : Point) (token : Token) (stop : Point) : Prop where
  lparen : token = .lparen → stop.opened = start.opened + 1
  rparen : token = .rparen → start.opened = stop.opened + 1
  other : ¬ token.isParenthesis → stop.opened = start.opened

theorem opened_of_step {start stop : Point} {token : Token} (h : start.step token = some stop) :
    start.Opened token stop := by
  rcases start with ⟨_ | _, _ | opened⟩ <;> cases token <;> cases h <;>
    constructor <;> simp [Token.isParenthesis]

end Point

open Text (MaximalRun byteLength)

namespace Source

variable {text before after lexeme front back rest : List Char} {token : Token}
  {pieces firsts lasts : List Piece} {piece : Piece} {source : String}

/-! ## Where items stand -/

/-- Where an item stands. -/
def itemPosition : Item → Nat
  | .ok lexeme => lexeme.position
  | .error error => error.position

/-- The characters `back`, in front of which `front` stands, start with what the item is
about. -/
def Names (front back : List Char) : Item → Prop
  | .ok ⟨token, _⟩ =>
    (∃ lexeme after, back = lexeme ++ after ∧ Spells front after lexeme token) ∨
      back = [] ∧ token = .eof
  | .error (.unexpectedCharacter character _) => back.head? = some character
  | .error (.literalTooLarge literal _) =>
    ∃ after, back = literal.toList ++ after ∧ literal.toList ≠ [] ∧
      MaximalRun Char.isDigit front literal.toList after

theorem textOf_append : textOf (firsts ++ lasts) = textOf firsts ++ textOf lasts :=
  List.flatMap_append

/-- Each piece of a text spells its token between what stands around it. -/
theorem Fits.spells (h : Fits rest before (firsts ++ piece :: lasts)) :
    Spells (before ++ textOf firsts) (piece.blanks ++ (textOf lasts ++ rest)) piece.lexeme
      piece.token := by
  induction firsts generalizing before with
  | nil =>
    cases h with
    | piece hlexeme _ _ =>
      rw [textOf_nil, List.append_nil]
      exact hlexeme
  | cons first firsts ih =>
    cases h with
    | piece _ _ hafter => simpa using ih hafter

/-- The rest of a text stops the reading. -/
theorem Fits.stops (h : Fits rest before pieces) : Stops (before ++ textOf pieces) rest := by
  induction h with
  | stop hstops => simpa using hstops
  | piece _ _ _ ih => simpa using ih

/-- What stops the reading is about the characters that do. -/
theorem Stops.names (h : Stops front rest) (offset : Nat) :
    Names front rest (stopItem offset rest) := by
  cases h with
  | empty => exact .inr ⟨rfl, rfl⟩
  | unexpected _ _ hdigit =>
    rw [stopItem, if_neg hdigit]
    rfl
  | @tooLarge digits after hne hrun _ =>
    have htake := hrun.takeWhile_eq
    rcases List.exists_cons_of_ne_nil hne with ⟨d, digits, rfl⟩
    rw [List.cons_append] at htake ⊢
    rw [stopItem, if_pos (hrun.all d (by simp)), htake]
    exact ⟨after, by simp, by simp, by simpa using hrun⟩

theorem itemPosition_stopItem (offset : Nat) (rest : List Char) :
    itemPosition (stopItem offset rest) = offset := by
  cases rest with
  | nil => rfl
  | cons c cs =>
    rw [stopItem]
    split <;> rfl

namespace Decomposition

/-- The feed of a text gives the items of its decomposition. -/
theorem item_ofSource (d : Decomposition source.toList) (n : Nat) :
    (Feed.ofSource source).item n = some (d.item n) := by
  rw [Feed.ofSource, scan, d.scanFrom_eq, Feed.followedBy, Feed.item_endless]
  simp only [List.getElem?_toArray, lexemesOf, List.getElem?_mapIdx, item, offset,
    Text.byteLength_append]
  cases d.pieces[n]? <;> rfl

/-- Each item of a decomposition is about the characters at its position. -/
theorem exists_cut (d : Decomposition text) (n : Nat) :
    ∃ front back, text = front ++ back ∧ itemPosition (d.item n) = byteLength front ∧
      Names front back (d.item n) := by
  rcases hpiece : d.pieces[n]? with _ | piece
  · refine ⟨d.blanks ++ textOf d.pieces, d.rest, ?_, ?_, ?_⟩
    · rw [List.append_assoc, d.text_eq]
    · rw [item, hpiece, itemPosition_stopItem, offset, List.take_length]
    · rw [item, hpiece]
      exact d.fits.stops.names _
  · have hpieces : d.pieces = d.pieces.take n ++ piece :: d.pieces.drop (n + 1) := by
      obtain ⟨hlt, rfl⟩ := List.getElem?_eq_some_iff.mp hpiece
      rw [← List.drop_eq_getElem_cons hlt, List.take_append_drop]
    have hfits := d.fits
    rw [hpieces] at hfits
    refine ⟨d.blanks ++ textOf (d.pieces.take n),
      textOf (piece :: d.pieces.drop (n + 1)) ++ d.rest, ?_, ?_, ?_⟩
    · refine d.text_eq.symm.trans ?_
      rw [List.append_assoc, ← List.append_assoc (textOf (d.pieces.take n)), ← textOf_append,
        ← hpieces]
    · rw [item, hpiece]
      rfl
    · rw [item, hpiece, textOf_cons]
      simp only [List.append_assoc]
      exact .inl ⟨_, _, rfl, hfits.spells⟩

/-- If the reading meets the end of the text, there is no rest. -/
theorem eq_of_scan (d : Decomposition source.toList) {lexemes : List Lexeme} {stop : Lexeme}
    (h : scan source = ⟨lexemes, .ok stop⟩) :
    d.rest = [] ∧ lexemes = lexemesOf (byteLength d.blanks) d.pieces := by
  rw [scan, d.scanFrom_eq, Reading.mk.injEq] at h
  refine ⟨?_, h.1.symm⟩
  rcases hrest : d.rest with _ | ⟨c, cs⟩
  · rfl
  · have hstop := h.2
    rw [hrest, stopItem] at hstop
    split at hstop <;> cases hstop

end Decomposition

/-- Every item of a source text is about the characters at its position. -/
theorem exists_cut {n : Nat} {item : Item} (h : (Feed.ofSource source).item n = some item) :
    ∃ front back, source.toList = front ++ back ∧ itemPosition item = byteLength front ∧
      Names front back item := by
  obtain ⟨d⟩ := Decomposition.exists_of_text source.toList
  rw [d.item_ofSource, Option.some.injEq] at h
  exact h ▸ d.exists_cut n

/-- Lexemes stand one behind the other. -/
theorem pairwise_scanFrom (offset : Nat) (cs : List Char) :
    (scanFrom offset cs).lexemes.Pairwise fun first second =>
      first.position < second.position := by
  induction offset, cs using scanFrom_induction with
  | nil offset => simp
  | blank offset c cs hblank ih => rwa [scanFrom_blank hblank]
  | mark offset c cs token hblank htoken ih =>
    have hsize := c.utf8Size_pos
    have hwithin := within_scanFrom (offset + c.utf8Size) cs
    rw [scanFrom_token hblank htoken]
    refine List.pairwise_cons.mpr ⟨?_, ih⟩
    intro second hsecond
    have hbehind := (hwithin.lexemes second hsecond).1
    show offset < second.position
    omega
  | integer offset c cs value hdigit hvalue ih =>
    have hsize := Text.byteLength_cons_pos c (cs.takeWhile Char.isDigit)
    have hwithin := within_scanFrom (offset + byteLength (c :: cs.takeWhile Char.isDigit))
      (cs.dropWhile Char.isDigit)
    rw [scanFrom_integer hdigit hvalue]
    refine List.pairwise_cons.mpr ⟨?_, ih⟩
    intro second hsecond
    have hbehind := (hwithin.lexemes second hsecond).1
    show offset < second.position
    omega
  | tooLarge offset c cs hdigit hvalue =>
    rw [scanFrom_tooLarge hdigit hvalue]
    exact .nil
  | unexpected offset c cs hblank htoken hdigit =>
    rw [scanFrom_unexpected hblank htoken hdigit]
    exact .nil

/-! ## Digits and parentheses by lexemes -/

/-- A cut stays one where characters in front of it are left out. -/
theorem Cut.of_append (h : Cut (before ++ front) back) : Cut front back := by
  induction before with
  | nil => exact h
  | cons c before ih => exact ih h.tail

/-- Blanks are no digits. -/
theorem digitRuns_blanks {blanks : List Char} (h : ∀ c ∈ blanks, c ∈ separators) :
    Text.digitRuns (blanks ++ rest) = Text.digitRuns rest :=
  Text.digitRuns_append_of_none fun c hc hdigit => not_mem_separators_of_isDigit hdigit (h c hc)

/-- Blanks are no parentheses. -/
theorem opens_blanks {blanks : List Char} {opened : Nat} (h : ∀ c ∈ blanks, c ∈ separators) :
    Text.Opens opened blanks opened := by
  refine .of_none ?_
  intro c hc
  have hblank := h c hc
  constructor <;> rintro rfl <;> simp [separators] at hblank

/-- The characters of an integer are one run of digits, and no other lexeme has digits. -/
theorem Spells.digitRuns_eq (h : Spells before after lexeme token) :
    Text.digitRuns lexeme = if token.isInteger then 1 else 0 := by
  cases h with
  | @mark c _ hmark =>
    have hinteger : ¬ token.isInteger := by
      simp only [marks, List.mem_cons, Prod.mk.injEq, List.not_mem_nil, or_false] at hmark
      rcases hmark with ⟨-, rfl⟩ | ⟨-, rfl⟩ | ⟨-, rfl⟩ | ⟨-, rfl⟩ | ⟨-, rfl⟩ | ⟨-, rfl⟩ <;>
        exact Bool.false_ne_true
    rw [if_neg hinteger]
    simp [Text.digitRuns, not_isDigit_of_mem_marks hmark]
  | integer hne hrun => exact Text.digitRuns_of_all hne hrun.all

/-- The runs of digits among the lexemes are the integers. -/
theorem Fits.digitRuns_eq (h : Fits rest before pieces) (offset : Nat) :
    Text.digitRuns (textOf pieces ++ rest) =
      ((lexemesOf offset pieces).countP fun lexeme => lexeme.token.isInteger) +
        Text.digitRuns rest := by
  induction h generalizing offset with
  | stop => simp
  | @piece before piece pieces hlexeme hblanks _ ih =>
    rw [textOf_cons, List.append_assoc, List.append_assoc,
      Text.digitRuns_append hlexeme.cut.of_append, digitRuns_blanks hblanks.mem,
      hlexeme.digitRuns_eq, lexemesOf_cons, List.countP_cons,
      ih (offset + byteLength piece.lexeme + byteLength piece.blanks)]
    dsimp only
    omega

/-- Where a token leads from one point to another, its characters open and close what
lies between them. -/
theorem Spells.opens (h : Spells before after lexeme token) {start stop : Point}
    (hstep : start.step token = some stop) : Text.Opens start.opened lexeme stop.opened := by
  have hopened := Point.opened_of_step hstep
  have hother (htoken : ¬ token.isParenthesis) (hnone : ∀ c ∈ lexeme, c ≠ '(' ∧ c ≠ ')') :
      Text.Opens start.opened lexeme stop.opened := by
    rw [hopened.other htoken]
    exact .of_none hnone
  cases h with
  | mark hmark =>
    simp only [marks, List.mem_cons, Prod.mk.injEq, List.not_mem_nil, or_false] at hmark
    rcases hmark with ⟨rfl, rfl⟩ | ⟨rfl, rfl⟩ | ⟨rfl, rfl⟩ | ⟨rfl, rfl⟩ | ⟨rfl, rfl⟩ | ⟨rfl, rfl⟩
    iterate 4 exact hother Bool.false_ne_true (by simp)
    · rw [hopened.lparen rfl]
      exact .lparen
    · rw [hopened.rparen rfl]
      exact .rparen
  | integer _ hrun =>
    refine hother Bool.false_ne_true ?_
    intro c hc
    have hdigit := hrun.all c hc
    constructor <;> rintro rfl <;> cases hdigit

/-- The parentheses in a text are those that its lexemes lead past. -/
theorem Fits.opens_of_walk (h : Fits [] before pieces) (offset : Nat) {start stop : Point}
    (hwalk : start.walk (lexemesOf offset pieces) = some stop) :
    Text.Opens start.opened (textOf pieces) stop.opened := by
  induction h generalizing offset start with
  | stop =>
    obtain rfl : start = stop := by simpa using hwalk
    exact .of_none (by simp)
  | @piece before piece pieces hlexeme hblanks _ ih =>
    rw [lexemesOf_cons, Point.walk_cons, Option.bind_eq_some_iff] at hwalk
    obtain ⟨next, hstep, hrest⟩ := hwalk
    rw [textOf_cons]
    exact (hlexeme.opens hstep).append ((opens_blanks hblanks.mem).append (ih _ hrest))

end Source

end Abacus
