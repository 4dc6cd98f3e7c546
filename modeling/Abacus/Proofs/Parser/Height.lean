import Abacus.Proofs.Evaluation
import Abacus.Proofs.Parser.Run

/-!
# Heights of trees while they are built

The loops over operators note the height of their tree and do not measure it again. Here the
rules of the grammar run in a monad that lists their steps, and so the trees of a parse that
fails can be seen, of which its outcome says nothing.

* `Parser.Step.Sound` — a height that is noted is that of the tree, and within the limit where
  the tree is built.
* `Parser.Watched` — a parser that lists its steps. `Watched.expression`, `Watched.term`,
  `Watched.factor` and `Watched.whole` are the rules of the grammar as such parsers.
* `Parser.Watches` — a watched parser has the outcome of a parser, its steps are sound, and
  what it returns is as expected. There is one rule for each way parsers are put together.
* `Parser.Watches.chain`, `Parser.Watches.factor` — one turn of a loop keeps the height, and
  one level of signs and parentheses keeps the room that is left.
* `parsers_keep_height` — all four parsers, wherever they start.
-/

namespace Abacus

/-- The greatest number of signs on a way from the root to a leaf. -/
def Expr.signs : Expr → Nat
  | literal _ _ => 0
  | unary _ operand _ => 1 + operand.signs
  | binary _ left right _ => max left.signs right.signs

namespace Parser

/-! ## Steps -/

/-- Heights that are noted or checked are those of the trees, and no node that is built is
higher than the limit. -/
def Step.Sound : Step → Prop
  | turn height left => height = left.depth
  | check height node => height = node.depth
  | build node => node.depth ≤ maxDepth

/-- A computation that reads a feed and lists its steps, whether it succeeds or fails. -/
def Watched (α : Type) : Type :=
  Feed → Cursor → List Step × Except ParseError α × Cursor

namespace Watched

instance : Monad Watched where
  pure a := fun _ cursor => ([], .ok a, cursor)
  bind q g := fun feed cursor =>
    match q feed cursor with
    | (steps, .ok a, middle) =>
      let (more, outcome) := g a feed middle
      (steps ++ more, outcome)
    | (steps, .error error, middle) => (steps, .error error, middle)

/-- A parser without steps of its own. -/
def still {α : Type} (p : Parser α) : Watched α := fun feed cursor => ([], p feed cursor)

/-- Lists one step. -/
def note (step : Step) : Watched Unit := fun _ cursor => ([step], .ok (), cursor)

section

variable {α β : Type} {q : Watched α} {g : α → Watched β} {feed : Feed} {cursor middle : Cursor}
  {steps : List Step}

theorem bind_run (q : Watched α) (g : α → Watched β) (feed : Feed) (cursor : Cursor) :
    (q >>= g) feed cursor =
      match q feed cursor with
      | (steps, .ok a, middle) => (steps ++ (g a feed middle).1, (g a feed middle).2)
      | (steps, .error error, middle) => (steps, .error error, middle) := rfl

theorem bind_ok {a : α} (h : q feed cursor = (steps, .ok a, middle)) :
    (q >>= g) feed cursor = (steps ++ (g a feed middle).1, (g a feed middle).2) := by
  rw [bind_run, h]

theorem bind_error {error : ParseError} (h : q feed cursor = (steps, .error error, middle)) :
    (q >>= g) feed cursor = (steps, .error error, middle) := by
  rw [bind_run, h]

end

instance : Host Watched where
  read := still
  note := note

/-- A factor inside `depth` signs and parentheses. -/
def factor (depth : Nat) : Watched Expr := Rule.factor (room depth)

/-- An expression inside `depth` signs and parentheses. -/
def expression (depth : Nat) : Watched Expr := Rule.expression depth

/-- A term inside `depth` signs and parentheses. -/
def term (depth : Nat) : Watched Expr := Rule.term depth

/-- A whole input. -/
def whole : Watched Expr := Rule.whole

end Watched

/-! ## Watching a parser -/

/-- The second computation lists its steps and ends as the first. All these steps are sound,
and if something is returned, `post` holds of them and of it. -/
def Watches {α : Type} (p : Parser α) (q : Watched α) (post : List Step → α → Prop) : Prop :=
  ∀ feed cursor, ∃ steps, q feed cursor = (steps, p feed cursor) ∧
    (∀ step ∈ steps, step.Sound) ∧ ∀ a, (p feed cursor).1 = .ok a → post steps a

/-- What is known of a tree that is read inside `depth` signs and parentheses: all its nodes
were built in these steps, and its signs fit into the room. -/
structure Grown (depth : Nat) (steps : List Step) (tree : Expr) : Prop where
  built : ∀ node ∈ tree.postorder, .build node ∈ steps
  signs_le : depth + tree.signs ≤ maxNesting

namespace Grown

variable {depth : Nat} {earlier steps more : List Step} {tree left right : Expr} {token : Token}
  {position : Nat}

theorem mono (h : Grown depth steps tree) (hsub : steps ⊆ more) : Grown depth more tree where
  built node hnode := hsub (h.built node hnode)
  signs_le := h.signs_le

/-- Fewer signs and parentheses leave more room. -/
theorem outward (h : Grown (depth + 1) steps tree) : Grown depth steps tree where
  built := h.built
  signs_le := by
    have := h.signs_le
    omega

theorem literal (hdepth : depth ≤ maxNesting)
    (hroot : .build (.literal token position) ∈ steps) :
    Grown depth steps (.literal token position) where
  built node hnode := by
    obtain rfl := List.mem_singleton.mp hnode
    exact hroot
  signs_le := hdepth

theorem unary (h : Grown (depth + 1) steps tree)
    (hroot : .build (.unary token tree position) ∈ steps) :
    Grown depth steps (.unary token tree position) where
  built node hnode := by
    rcases List.mem_append.mp hnode with hnode | hnode
    · exact h.built node hnode
    · obtain rfl := List.mem_singleton.mp hnode
      exact hroot
  signs_le := by
    have := h.signs_le
    simp only [Expr.signs]
    omega

theorem binary (hleft : Grown depth steps left) (hright : Grown depth steps right)
    (hroot : .build (.binary token left right position) ∈ steps) :
    Grown depth steps (.binary token left right position) where
  built node hnode := by
    simp only [Expr.postorder, List.mem_append, List.mem_singleton] at hnode
    rcases hnode with (hnode | hnode) | rfl
    · exact hleft.built node hnode
    · exact hright.built node hnode
    · exact hroot
  signs_le := by
    have := hleft.signs_le
    have := hright.signs_le
    simp only [Expr.signs]
    omega

/-- The steps of one turn of a loop: those of the right operand, and one more node, whose
height is checked before. -/
theorem turn (hleft : Grown depth earlier left) (hright : Grown depth steps right) (op : Lexeme) :
    let node := Expr.binary op.token left right op.position
    Grown depth
      (earlier ++ .turn left.depth left :: (steps ++ [.check node.depth node, .build node]))
      node := by
  intro node
  let now := earlier ++ .turn left.depth left :: (steps ++ [.check node.depth node, .build node])
  have hearlier : earlier ⊆ now := List.subset_append_left _ _
  have hsteps : steps ⊆ now := by
    intro step hstep
    simp [now, hstep]
  have hroot : Step.build node ∈ now := by simp [now]
  exact (hleft.mono hearlier).binary (hright.mono hsteps) hroot

end Grown

namespace Watches

variable {α β : Type} {p p' : Parser α} {q q' : Watched α} {f : α → Parser β}
  {g : α → Watched β} {between post : List Step → α → Prop} {after : List Step → β → Prop}

theorem mono (h : Watches p q between) (hpost : ∀ steps a, between steps a → post steps a) :
    Watches p q post := by
  intro feed cursor
  obtain ⟨steps, hrun, hsound, hbetween⟩ := h feed cursor
  exact ⟨steps, hrun, hsound, fun a ha => hpost steps a (hbetween a ha)⟩

theorem pure {a : α} (h : post [] a) : Watches (pure a) (pure a) post := by
  intro feed cursor
  refine ⟨[], rfl, nofun, ?_⟩
  intro b hb
  obtain rfl : a = b := Except.ok.inj hb
  exact h

theorem fail (error : ParseError) :
    Watches (Host.read (Parser.fail error)) (Host.read (Parser.fail error)) post :=
  fun _ _ => ⟨[], rfl, nofun, nofun⟩

/-- The steps of one computation come before those of the next. -/
theorem bind (hfirst : Watches p q between)
    (hnext : ∀ steps a, between steps a →
      Watches (f a) (g a) fun more b => after (steps ++ more) b) :
    Watches (p >>= f) (q >>= g) after := by
  intro feed cursor
  obtain ⟨steps, hrun, hsound, hbetween⟩ := hfirst feed cursor
  rcases hp : p feed cursor with ⟨error | a, middle⟩
  · rw [hp] at hrun
    rw [bind_error hp]
    exact ⟨steps, Watched.bind_error hrun, hsound, nofun⟩
  · rw [hp] at hrun hbetween
    obtain ⟨more, hmore, hsound', hafter⟩ := hnext steps a (hbetween a rfl) feed middle
    rw [bind_ok hp]
    refine ⟨steps ++ more, ?_, ?_, hafter⟩
    · rw [Watched.bind_ok hrun, hmore]
    · intro step hstep
      exact (List.mem_append.mp hstep).elim (hsound step) (hsound' step)

/-- What only reads comes first. -/
theorem read_bind (p : Parser α) (hnext : ∀ a, Watches (f a) (g a) after) :
    Watches (Host.read p >>= f) (Host.read p >>= g) after := by
  have hread : Watches (Host.read p) (Host.read p) fun steps _ => steps = [] :=
    fun _ _ => ⟨[], rfl, nofun, fun _ _ => rfl⟩
  refine hread.bind ?_
  rintro _ a rfl
  exact hnext a

/-- A step that is noted changes nothing but the list. -/
theorem note_bind {step : Step} {f : Unit → Parser α} {g : Unit → Watched α} (hstep : step.Sound)
    (h : Watches (f ()) (g ()) fun steps a => post (step :: steps) a) :
    Watches (Host.note step >>= f) (Host.note step >>= g) post := by
  have hnote : Watches (Host.note step) (Host.note step) fun steps _ => steps = [step] :=
    fun _ _ => ⟨[step], rfl, List.forall_mem_singleton.mpr hstep, fun _ _ => rfl⟩
  refine hnote.bind ?_
  rintro _ _ rfl
  exact h

theorem ite {c : Prop} [Decidable c] (hthen : Watches p q post) (helse : Watches p' q' post) :
    Watches (if c then p else p') (if c then q else q') post := by
  split
  · exact hthen
  · exact helse

variable {isOp : Token → Bool} {operand : Parser Expr} {watched : Watched Expr} {depth : Nat}

/-- The height that a loop has noted is that of its tree, turn by turn. -/
theorem chain (hoperand : Watches operand watched (Grown depth)) {earlier : List Step}
    {left : Expr} (hleft : Grown depth earlier left) :
    Watches (Rule.chain isOp operand left.depth left) (Rule.chain isOp watched left.depth left)
      fun steps tree => Grown depth (earlier ++ steps) tree := by
  -- The height grows with every turn, up to the limit.
  induction hturns : maxDepth - left.depth using Nat.strongRecOn generalizing earlier left with
  | ind turns ih =>
  subst hturns
  rw [Rule.chain, Rule.chain]
  refine .note_bind rfl (.read_bind peek fun lexeme => ?_)
  refine .ite (.read_bind skip fun _ => hoperand.bind ?_) (.pure (hleft.mono (by simp)))
  intro steps right hright
  refine .note_bind rfl ?_
  by_cases hhigh : maxDepth < 1 + max left.depth right.depth
  · rw [dif_pos hhigh, dif_pos hhigh]
    exact .fail _
  · rw [dif_neg hhigh, dif_neg hhigh]
    refine .note_bind (Nat.not_lt.mp hhigh) ?_
    have hturn := hleft.turn hright lexeme
    have hnext := ih (maxDepth - (1 + max left.depth right.depth)) (by omega) hturn rfl
    refine hnext.mono ?_
    intro more tree htree
    simpa [Expr.depth] using htree

theorem level (hoperand : Watches operand watched (Grown depth)) :
    Watches (Rule.level isOp operand) (Rule.level isOp watched) (Grown depth) :=
  hoperand.bind fun _ _ hleft => hoperand.chain hleft

theorem sum (hfactor : Watches operand watched (Grown depth)) :
    Watches (Rule.sum operand) (Rule.sum watched) (Grown depth) :=
  hfactor.level.level

/-- One level of signs and parentheses takes one from the room that is left. -/
theorem factor (depth : Nat) :
    Watches (Rule.factor (room depth)) (Rule.factor (room depth)) (Grown depth) := by
  induction hroom : room depth generalizing depth with
  | zero => exact .read_bind peek fun _ => .fail _
  | succ less ih =>
    have hdepth : depth ≤ maxNesting := by unfold room at hroom; omega
    have hinner := ih (depth + 1) (by unfold room at hroom ⊢; omega)
    rw [Rule.factor, Rule.factor]
    refine .read_bind peek fun lexeme => ?_
    refine .ite (.read_bind skip fun _ => hinner.bind ?_) (.read_bind (eat _) fun first => ?_)
    · -- A sign and its operand.
      intro steps operand hoperand
      refine .note_bind rfl ?_
      by_cases hhigh : maxDepth < 1 + operand.depth
      · rw [if_pos hhigh, if_pos hhigh]
        exact .fail _
      · rw [if_neg hhigh, if_neg hhigh]
        refine .note_bind (Nat.not_lt.mp hhigh) (.pure ?_)
        exact (hoperand.mono (by simp)).unary (by simp)
    · refine .ite ?_ ?_
      · -- An integer.
        refine .note_bind (by simp [Step.Sound, Expr.depth, maxDepth]) (.pure ?_)
        exact .literal hdepth (by simp)
      · -- An expression between parentheses, which leave no step.
        refine hinner.sum.bind fun steps tree htree => .read_bind (eat _) fun _ => .pure ?_
        simpa using htree.outward

theorem whole : Watches Rule.whole Rule.whole (Grown 0) :=
  (factor 0).sum.bind fun _ _ htree =>
    .read_bind peek fun _ => .ite (.pure (by simpa using htree)) (.fail _)

end Watches

end Parser

/-- Started anywhere in any feed, inside any number of signs and parentheses, the parsers end as
their watched forms do, and whether or not they succeed, the height of a loop is that of its
tree at the head of every turn, the height that is checked is that of the node to be built, and
no node that is built is higher than `maxDepth`. If they return a tree, these steps built all
its nodes, and no way to a leaf has more signs than `maxNesting` leaves room for. -/
theorem parsers_keep_height :
    Parser.Watches Parser.whole .whole (Parser.Grown 0) ∧
      ∀ depth, Parser.Watches (Parser.expression depth) (.expression depth) (Parser.Grown depth) ∧
        Parser.Watches (Parser.term depth) (.term depth) (Parser.Grown depth) ∧
        Parser.Watches (Parser.factor (Parser.room depth)) (.factor depth)
          (Parser.Grown depth) := by
  refine ⟨.whole, ?_⟩
  intro depth
  have hfactor := Parser.Watches.factor depth
  exact ⟨hfactor.sum, hfactor.level, hfactor⟩

/-- Three operands, of which the last is missing: the tree of the first two is built, though
no outcome shows it. -/
example :
    let one := Expr.literal (.integer 1) 0
    let two := Expr.literal (.integer 2) 2
    let difference := Expr.binary .minus one two 1
    let items := #[⟨.integer 1, 0⟩, ⟨.minus, 1⟩, ⟨.integer 2, 2⟩, ⟨.plus, 3⟩].map Except.ok
    let (steps, result, _) := Parser.Watched.expression 0 (.ofItems items) (.startingAt 0)
    result = .error .unexpectedEndOfInput ∧
      steps = [.build one, .turn 1 one, .turn 1 one, .build two, .turn 1 two,
        .check 2 difference, .build difference, .turn 2 difference] := by
  decide +kernel

end Abacus
