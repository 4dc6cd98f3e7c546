import Abacus.Proofs.Grammar

/-!
# Beginnings of phrases

Where one stands inside a phrase after some of its lexemes.

* `Point` — whether an operand or an operator comes next, and how many
  parentheses are open. `Point.walk` follows a token list from point to point:
  a list it cannot follow begins no expression.
* `Begun level used nest point` — the lexemes `used` begin a phrase of the level
  and lead to the point, inside `nest` signs and parentheses.
* `Begun.derives_fill` — a beginning can be filled up to a phrase.
* `Starts level used inner` — where the lexemes `used` of a phrase of the level end, a
  phrase of `inner` starts. `Leads` is one step on the way there.
* `Begun.walk`, `Derives.walk` — the walk along a beginning and along a phrase,
  from which `not_viable_of_stuck` and `Begun.not_complete` follow.
-/

namespace Abacus

/-! ## Points -/

/-- What comes next: an operand, or an operator or parenthesis after one. -/
inductive Place where
  | operand
  | operator
deriving DecidableEq, Repr

/-- The kinds of tokens of which one has to come next, if it is no operator. -/
def Place.expected : Place → List Token.Kind
  | .operand => [.integer, .lparen]
  | .operator => [.rparen]

/-- The tokens that may come next where a parenthesis is open. -/
def Place.allows : Place → Token → Bool
  | .operand, token => token.isAdditive || token.kind ∈ expected .operand
  | .operator, token =>
    token.isAdditive || token.isMultiplicative || token.kind ∈ expected .operator

/-- A place in a token list and the number of parentheses open there. -/
structure Point where
  place : Place
  opened : Nat
deriving DecidableEq, Repr

namespace Point

/-- One token further. -/
def step : Point → Token → Option Point
  | ⟨.operand, opened⟩, .integer _ => some ⟨.operator, opened⟩
  | ⟨.operand, opened⟩, .plus | ⟨.operand, opened⟩, .minus => some ⟨.operand, opened⟩
  | ⟨.operand, opened⟩, .lparen => some ⟨.operand, opened + 1⟩
  | ⟨.operator, opened + 1⟩, .rparen => some ⟨.operator, opened⟩
  | ⟨.operator, opened⟩, op =>
    if op.isAdditive || op.isMultiplicative then some ⟨.operand, opened⟩ else none
  | _, _ => none

/-- Some lexemes further. -/
def walk (point : Point) (lexemes : List Lexeme) : Option Point :=
  lexemes.foldlM (fun point lexeme => point.step lexeme.token) point

variable {point : Point} {opened : Nat}

@[simp] theorem walk_nil : point.walk [] = some point := rfl

@[simp] theorem walk_cons (lexeme : Lexeme) (lexemes : List Lexeme) :
    point.walk (lexeme :: lexemes) = (point.step lexeme.token).bind (·.walk lexemes) := rfl

@[simp] theorem walk_append (firsts lasts : List Lexeme) :
    point.walk (firsts ++ lasts) = (point.walk firsts).bind (·.walk lasts) :=
  List.foldlM_append

theorem step_sign {op : Token} (hop : op.isAdditive) :
    step ⟨.operand, opened⟩ op = some ⟨.operand, opened⟩ := by
  cases op <;> simp_all [step, Token.isAdditive]

theorem step_isOp {level : Level} {op : Token} (hop : level.isOp op) :
    step ⟨.operator, opened⟩ op = some ⟨.operand, opened⟩ := by
  cases level <;> cases op <;>
    simp_all [step, Level.isOp, Token.isAdditive, Token.isMultiplicative]

/-- A token that may not come next leads nowhere. -/
theorem step_of_not_allows {token : Token} (h : ¬ point.place.allows token) :
    point.step token = none := by
  rcases point with ⟨_ | _, _ | opened⟩ <;> cases token <;>
    simp_all [step, Place.allows, Place.expected, Token.isAdditive, Token.isMultiplicative,
      Token.kind]

/-- After an operand outside all parentheses, a token that is no operator leads nowhere. -/
theorem step_outside {token : Token} (hadditive : ¬ token.isAdditive)
    (hmultiplicative : ¬ token.isMultiplicative) : step ⟨.operator, 0⟩ token = none := by
  cases token <;> simp_all [step, Token.isAdditive, Token.isMultiplicative]

/-- The end of the input leads nowhere. -/
theorem step_eof : point.step .eof = none := by
  rcases point with ⟨_ | _, _ | opened⟩ <;> rfl

/-- A list that can be followed does not hold the end of the input. -/
theorem ne_eof_of_walk {lexemes : List Lexeme} {start stop : Point}
    (hwalk : start.walk lexemes = some stop) : ∀ lexeme ∈ lexemes, lexeme.token ≠ .eof := by
  induction lexemes generalizing start with
  | nil => simp
  | cons first rest ih =>
    rw [walk_cons, Option.bind_eq_some_iff] at hwalk
    obtain ⟨next, hnext, hrest⟩ := hwalk
    intro lexeme hmem heof
    rcases List.mem_cons.mp hmem with rfl | hmem
    · rw [heof, step_eof] at hnext
      cases hnext
    · exact ih hrest lexeme hmem heof

end Point

/-- Along a phrase one gets from before an operand to after it, with the same
parentheses open. -/
theorem Derives.walk {level : Level} {lexemes : List Lexeme} {tree : Expr} {nest : Nat}
    (h : Derives level lexemes tree nest) (opened : Nat) :
    Point.walk ⟨.operand, opened⟩ lexemes = some ⟨.operator, opened⟩ := by
  induction h generalizing opened with
  | integer => rfl
  | sign hop _ ih => simp [Point.step_sign hop, ih]
  | group _ ih => simp [Point.step, ih]
  | single _ _ ih => exact ih opened
  | operator _ _ hop _ ihl ihr => simp [ihl, ihr, Point.step_isOp hop]

/-- An expression ends after an operand, with no parenthesis open. -/
theorem Complete.walk {lexemes : List Lexeme} (h : Complete lexemes) :
    Point.walk ⟨.operand, 0⟩ lexemes = some ⟨.operator, 0⟩ := by
  obtain ⟨tree, nest, hderives⟩ := h
  exact hderives.walk 0

/-- What leads to a point where the next token is stuck cannot be completed. -/
theorem not_viable_of_stuck {used : List Lexeme} {point : Point} {lexeme : Lexeme}
    (hwalk : Point.walk ⟨.operand, 0⟩ used = some point)
    (hstuck : point.step lexeme.token = none) : ¬ Viable (used ++ [lexeme]) := by
  rintro ⟨rest, hcomplete⟩
  have hall := hcomplete.walk
  simp [hwalk, hstuck] at hall

/-! ## Beginnings -/

/-- The lexemes `used` begin a phrase of the level and lead to the point, inside
`nest` signs and parentheses. -/
inductive Begun : Level → List Lexeme → Nat → Point → Prop where
  /-- A factor of which nothing has been used. -/
  | start : Begun .factor [] 0 ⟨.operand, 0⟩
  /-- The sign of a factor and a beginning of its operand. -/
  | sign {op : Token} {position : Nat} {used : List Lexeme} {nest : Nat} {point : Point}
    (hop : op.isAdditive) (hoperand : Begun .factor used nest point) :
    Begun .factor (⟨op, position⟩ :: used) (nest + 1) point
  /-- The parenthesis of a factor and a beginning of the expression in it. -/
  | group {position : Nat} {used : List Lexeme} {nest : Nat} {point : Point}
    (hinner : Begun .expression used nest point) :
    Begun .factor (⟨.lparen, position⟩ :: used) (nest + 1) ⟨point.place, point.opened + 1⟩
  /-- A whole factor. -/
  | whole {used : List Lexeme} {tree : Expr} {nest : Nat} (h : Derives .factor used tree nest) :
    Begun .factor used 0 ⟨.operator, 0⟩
  /-- A beginning of the first operand of a phrase. -/
  | first {level below : Level} {used : List Lexeme} {nest : Nat} {point : Point}
    (hover : level.Over below) (hoperand : Begun below used nest point) :
    Begun level used nest point
  /-- A phrase, an operator and a beginning of one more operand. -/
  | later {level below : Level} {op : Token} {position : Nat} {lefts used : List Lexeme}
    {left : Expr} {m nest : Nat} {point : Point} (hover : level.Over below)
    (hleft : Derives level lefts left m) (hop : level.isOp op)
    (hoperand : Begun below used nest point) :
    Begun level (lefts ++ ⟨op, position⟩ :: used) nest point

/-- A phrase is a beginning of itself. -/
theorem Derives.begun {level : Level} {lexemes : List Lexeme} {tree : Expr} {nest : Nat}
    (h : Derives level lexemes tree nest) : Begun level lexemes 0 ⟨.operator, 0⟩ := by
  induction h with
  | integer value position => exact .whole (.integer value position)
  | sign hop hoperand _ => exact .whole (.sign hop hoperand)
  | group hinner _ => exact .whole (.group hinner)
  | single hover _ ih => exact .first hover ih
  | operator hover hleft hop _ _ ih => exact .later hover hleft hop ih

/-- After the lexemes `front` a phrase of `level` goes on with a phrase of `below`, which has
`nest` signs and parentheses more around it, `opened` parentheses among them. -/
inductive Leads : Level → Level → List Lexeme → Nat → Nat → Prop where
  /-- A phrase starts with its first operand. -/
  | first {level below : Level} (hover : level.Over below) : Leads level below [] 0 0
  /-- An operator is followed by one more operand. -/
  | later {level below : Level} {op : Lexeme} {lefts : List Lexeme} {left : Expr} {m : Nat}
    (hover : level.Over below) (hleft : Derives level lefts left m)
    (hop : level.isOp op.token) : Leads level below (lefts ++ [op]) 0 0
  /-- A sign is followed by its operand. -/
  | sign {op : Lexeme} (hop : op.token.isAdditive) : Leads .factor .factor [op] 1 0
  /-- An expression stands between parentheses. -/
  | group {position : Nat} : Leads .factor .expression [⟨.lparen, position⟩] 1 1

/-- A beginning of the inner phrase, with what leads to it, is one of the outer. -/
theorem Leads.begun {level below : Level} {front used : List Lexeme} {k j nest : Nat}
    {point : Point} (h : Leads level below front k j) (hinner : Begun below used nest point) :
    Begun level (front ++ used) (nest + k) ⟨point.place, point.opened + j⟩ := by
  cases h with
  | first hover => exact .first hover hinner
  | later hover hleft hop => simpa using Begun.later hover hleft hop hinner
  | sign hop => exact .sign hop hinner
  | group => exact .group hinner

/-- The lexemes begin a phrase of `level`, and where they end a phrase of `inner` starts. -/
inductive Starts : Level → List Lexeme → Level → Prop where
  /-- A phrase starts where nothing of it has been used. -/
  | here (level : Level) : Starts level [] level
  /-- A phrase further inside starts after what leads to the phrase around it. -/
  | inward {level below inner : Level} {front used : List Lexeme} {k j : Nat}
    (hlead : Leads level below front k j) (hrest : Starts below used inner) :
    Starts level (front ++ used) inner

/-- What may stand at a place so that operators and parentheses can follow. -/
def Place.Filled : Place → List Lexeme → Prop
  | .operand, lexemes => ∃ tree nest, Derives .factor lexemes tree nest
  | .operator, lexemes => lexemes = []

/-- Some closing parentheses, all of them at byte 0. -/
def closing (count : Nat) : List Lexeme := List.replicate count ⟨.rparen, 0⟩

namespace Begun

/-- The empty list begins a phrase of any level. -/
theorem nil (level : Level) : Begun level [] 0 ⟨.operand, 0⟩ :=
  match level with
  | .factor => start
  | .term => first .term start
  | .expression => first .expression (first .term start)

/-- Where a phrase starts, an operand comes next. -/
theorem of_starts {level inner : Level} {used : List Lexeme} (h : Starts level used inner) :
    ∃ nest opened, Begun level used nest ⟨.operand, opened⟩ := by
  induction h with
  | here level => exact ⟨0, 0, nil level⟩
  | inward hlead _ ih =>
    obtain ⟨nest, opened, hbegun⟩ := ih
    exact ⟨_, _, hlead.begun hbegun⟩

variable {level : Level} {used : List Lexeme} {nest : Nat} {point : Point}

/-- A beginning leads to its point, whatever is open around it. -/
theorem walk (h : Begun level used nest point) (opened : Nat) :
    Point.walk ⟨.operand, opened⟩ used = some ⟨point.place, opened + point.opened⟩ := by
  induction h generalizing opened with
  | start => rfl
  | sign hop _ ih => simp [Point.step_sign hop, ih]
  | group _ ih =>
    simp only [Point.walk_cons, Point.step, Option.bind_some, ih]
    congr 2
    omega
  | whole hderives => exact hderives.walk opened
  | first _ _ ih => exact ih opened
  | later _ hleft hop _ ih => simp [hleft.walk, Point.step_isOp hop, ih]

/-- A beginning followed by what may stand at its point and by as many closing
parentheses as are open there is a phrase. -/
theorem derives_fill (h : Begun level used nest point) {filling : List Lexeme}
    (hfill : point.place.Filled filling) :
    ∃ tree nest, Derives level (used ++ filling ++ closing point.opened) tree nest := by
  induction h with
  | start => simpa [closing, Place.Filled] using hfill
  | sign hop _ ih =>
    obtain ⟨tree, nest, hderives⟩ := ih hfill
    exact ⟨_, _, .sign hop hderives⟩
  | group _ ih =>
    -- The last of the closing parentheses closes this one.
    obtain ⟨tree, nest, hderives⟩ := ih hfill
    refine ⟨tree, nest + 1, ?_⟩
    simpa [closing, List.replicate_succ'] using Derives.group hderives
  | whole hderives =>
    have hnil : filling = [] := hfill
    exact ⟨_, _, by simpa [hnil, closing] using hderives⟩
  | first hover _ ih =>
    obtain ⟨tree, nest, hderives⟩ := ih hfill
    exact ⟨tree, nest, .single hover hderives⟩
  | later hover hleft hop _ ih =>
    obtain ⟨tree, nest, hderives⟩ := ih hfill
    exact ⟨_, _, by simpa using Derives.operator hover hleft hop hderives⟩

/-- A beginning of an expression, filled as its point demands, can become one. -/
theorem viable_fill (h : Begun .expression used nest point) {filling : List Lexeme}
    (hfill : point.place.Filled filling) : Viable (used ++ filling) :=
  ⟨closing point.opened, h.derives_fill hfill⟩

/-- A beginning of an expression can become one. -/
theorem viable (h : Begun .expression used nest point) : Viable used := by
  have hinteger : Derives .factor [⟨.integer 0, 0⟩] (.literal (.integer 0) 0) 0 := .integer 0 0
  rcases point with ⟨_ | _, opened⟩
  · -- Any operand will do.
    have hfilled : Viable (used ++ [⟨.integer 0, 0⟩]) := h.viable_fill ⟨_, _, hinteger⟩
    obtain ⟨rest, hcomplete⟩ := hfilled
    exact ⟨[⟨.integer 0, 0⟩] ++ rest, by simpa using hcomplete⟩
  · have hfilled : Viable (used ++ []) := h.viable_fill rfl
    simpa using hfilled

/-- A beginning is no expression yet where an operand comes next or a parenthesis is open. -/
theorem not_complete (h : Begun .expression used nest point)
    (hopened : point.place = .operator → 0 < point.opened) : ¬ Complete used := by
  intro hcomplete
  have hpoint : (⟨point.place, 0 + point.opened⟩ : Point) = ⟨.operator, 0⟩ :=
    Option.some.inj ((h.walk 0).symm.trans hcomplete.walk)
  simp only [Point.mk.injEq] at hpoint
  have := hopened hpoint.1
  omega

/-- Each kind expected at the point of a beginning is that of a token with which it can still
become an expression. After an operand this takes an open parenthesis. -/
theorem viable_expected (h : Begun .expression used nest point)
    (hopened : point.place = .operator → 0 < point.opened) {kind : Token.Kind}
    (hkind : kind ∈ point.place.expected) :
    ∃ lexeme : Lexeme, lexeme.token.kind = kind ∧ Viable (used ++ [lexeme]) := by
  have hinteger : Derives .factor [⟨.integer 0, 0⟩] (.literal (.integer 0) 0) 0 := .integer 0 0
  rcases point with ⟨_ | _, opened⟩
  · simp only [Place.expected, List.mem_cons, List.not_mem_nil, or_false] at hkind
    rcases hkind with rfl | rfl
    · exact ⟨⟨.integer 0, 0⟩, rfl, h.viable_fill ⟨_, _, hinteger⟩⟩
    · have hgroup : Derives .factor (⟨.lparen, 0⟩ :: ([⟨.integer 0, 0⟩] ++ [⟨.rparen, 0⟩]))
          (.literal (.integer 0) 0) 1 := .group hinteger.expression_of_factor
      obtain ⟨rest, hcomplete⟩ := h.viable_fill ⟨_, _, hgroup⟩
      exact ⟨⟨.lparen, 0⟩, rfl, [⟨.integer 0, 0⟩, ⟨.rparen, 0⟩] ++ rest, by simpa using hcomplete⟩
  · -- One of the open parentheses is closed at once and the others after it.
    obtain ⟨others, rfl⟩ := Nat.exists_eq_add_of_lt (hopened rfl)
    have hkind : kind = .rparen := by simpa [Place.expected] using hkind
    have hclosed : Complete (used ++ [] ++ closing (0 + others + 1)) := h.derives_fill rfl
    obtain ⟨tree, nest, hderives⟩ := hclosed
    refine ⟨⟨.rparen, 0⟩, hkind.symm, closing others, tree, nest, ?_⟩
    simpa [closing, List.replicate_succ] using hderives

end Begun

end Abacus
