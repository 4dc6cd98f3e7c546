import Mathlib.Data.List.TakeWhile
import Abacus.Interpret
import Abacus.Proofs.Evaluation
import Abacus.Proofs.Parser.Sequence

/-!
# What a run records

The log of a source text, for a reader who wants every detail.

* `Walk.Covers` — a walk gives values to the nodes of a list, in order, up to the first that
  fails.
* `Expr.covers_walk` — the walk of a tree does so for its nodes in post-order.
* `Expr.Traced` — these visits, with the values that the nodes have and denote.
* `interpretRecorded_trace` — the log is what the parser has used, the tree, the visits and the
  value, as far as the run came.
-/

namespace Abacus

/-! ## Visits -/

/-- Evaluated alone, the node has a value. -/
def Expr.Succeeds (node : Expr) : Bool := node.walk.outcome.isOk

namespace Walk

variable {α β : Type} {walk : Walk α} {next : α → Walk β} {nodes more : List Expr}

/-- The walk visits the nodes, in order and each with its value, up to the first that fails. It
ends with a value just if none does. -/
structure Covers (walk : Walk α) (nodes : List Expr) : Prop where
  nodes_eq : walk.visits.map Visit.node = nodes.takeWhile Expr.Succeeds
  outcome_eq : ∀ visit ∈ walk.visits, visit.node.walk.outcome = .ok visit.value
  isOk_eq : walk.outcome.isOk = nodes.all Expr.Succeeds

theorem visits_bind_ok {a : α} (h : walk.outcome = .ok a) :
    (walk >>= next).visits = walk.visits ++ (next a).visits := by
  rcases walk with ⟨visits, _ | _⟩ <;> cases h
  rfl

theorem visits_bind_error {error : EvalError} (h : walk.outcome = .error error) :
    (walk >>= next).visits = walk.visits := by
  rcases walk with ⟨visits, _ | _⟩ <;> cases h
  rfl

/-- Behind the first node that fails nothing is taken. -/
theorem takeWhile_append_of_not_all {p : Expr → Bool} (h : ¬ nodes.all p) :
    (nodes ++ more).takeWhile p = nodes.takeWhile p := by
  rw [List.takeWhile_append, if_neg]
  intro hlength
  have hself := (List.takeWhile_prefix p).eq_of_length hlength
  exact h (List.all_eq_true.mpr (List.takeWhile_eq_self_iff.mp hself))

namespace Covers

/-- Two walks in a row cover the nodes of both. -/
theorem bind (hfirst : walk.Covers nodes)
    (hnext : ∀ a, walk.outcome = .ok a → (next a).Covers more) :
    (walk >>= next).Covers (nodes ++ more) := by
  have hall := hfirst.isOk_eq
  rcases hrun : walk.outcome with error | a
  · rw [hrun] at hall
    have hfails : ¬ nodes.all Expr.Succeeds := by
      rw [← hall]
      exact Bool.false_ne_true
    refine ⟨?_, ?_, ?_⟩
    · rw [visits_bind_error hrun, hfirst.nodes_eq, takeWhile_append_of_not_all hfails]
    · rw [visits_bind_error hrun]
      exact hfirst.outcome_eq
    · rw [outcome_bind, hrun, List.all_append, ← hall]
      rfl
  · rw [hrun] at hall
    have hsecond := hnext a hrun
    have hsucceed : ∀ node ∈ nodes, node.Succeeds := List.all_eq_true.mp hall.symm
    refine ⟨?_, ?_, ?_⟩
    · rw [visits_bind_ok hrun, List.map_append, hfirst.nodes_eq, hsecond.nodes_eq,
        List.takeWhile_append_of_pos hsucceed, List.takeWhile_eq_self_iff.mpr hsucceed]
    · rw [visits_bind_ok hrun]
      intro visit hvisit
      rcases List.mem_append.mp hvisit with hvisit | hvisit
      · exact hfirst.outcome_eq visit hvisit
      · exact hsecond.outcome_eq visit hvisit
    · rw [outcome_bind, hrun, List.all_append, ← hall, ← hsecond.isOk_eq]
      rfl

/-- The visit of a node covers it. -/
theorem visit {node : Expr} {outcome : Except EvalError Wide} (h : node.walk.outcome = outcome) :
    (Walk.visit node outcome).Covers [node] := by
  have hnode : node.Succeeds = outcome.isOk := by rw [Expr.Succeeds, h]
  cases outcome with
  | error error =>
    constructor <;> simp [Walk.visit, hnode, Except.isOk, Except.toBool]
  | ok value =>
    constructor <;> simp [Walk.visit, hnode, h, Except.isOk, Except.toBool]

end Covers

end Walk

namespace Expr

/-- The walk of a tree covers its nodes in post-order. -/
theorem covers_walk (tree : Expr) : tree.walk.Covers tree.postorder := by
  induction tree with
  | literal token position =>
    have hrun : (literal token position).walk.outcome = literalValue token position := by
      rw [walk, Walk.outcome_visit]
    exact .visit hrun
  | unary op operand position ih =>
    rw [walk, postorder]
    refine ih.bind ?_
    intro value hvalue
    refine .visit ?_
    rw [walk, Walk.outcome_bind, hvalue]
    exact Walk.outcome_visit ..
  | binary op left right position ihl ihr =>
    rw [walk, postorder, List.append_assoc]
    refine ihl.bind ?_
    intro leftValue hleft
    refine ihr.bind ?_
    intro rightValue hright
    refine .visit ?_
    rw [walk, Walk.outcome_bind, hleft]
    show Walk.outcome (right.walk >>= _) = _
    rw [Walk.outcome_bind, hright]
    exact Walk.outcome_visit ..

/-- The visits are those of the nodes of the tree, in post-order, up to the first that fails:
each with the value of its node, which is the integer that the node denotes. If no node is at
fault, they are those of all nodes. -/
structure Traced (tree : Expr) (visits : List Visit) : Prop where
  nodes_eq : visits.map Visit.node = tree.postorder.takeWhile Succeeds
  outcome_eq : ∀ visit ∈ visits, visit.node.walk.outcome = .ok visit.value
  meaning_eq : ∀ visit ∈ visits, visit.node.meaning? = some visit.value.toInt
  all_of_no_fault : tree.firstFault? = none → visits.map Visit.node = tree.postorder

/-- The narrowing at the root makes no visit. -/
theorem visits_evaluation (tree : Expr) : tree.evaluation.visits = tree.walk.visits := by
  unfold evaluation
  rcases hrun : tree.walk.outcome with error | value
  · exact Walk.visits_bind_error hrun
  · rw [Walk.visits_bind_ok hrun]
    exact List.append_nil _

/-- Whether or not it ends with a value, the evaluation of a tree visits its nodes in post-order
up to the first that fails. -/
theorem traced_evaluation (tree : Expr) : tree.Traced tree.evaluation.visits := by
  have hcovers := tree.covers_walk
  rw [visits_evaluation]
  refine ⟨hcovers.nodes_eq, hcovers.outcome_eq, ?_, ?_⟩
  · intro visit hvisit
    have hagrees := visit.node.agrees_walk
    rw [hcovers.outcome_eq visit hvisit] at hagrees
    exact hagrees.2.1
  · intro hnone
    have hagrees := tree.agrees_walk
    have hall := hcovers.isOk_eq
    rcases hrun : tree.walk.outcome with error | value
    · rw [hrun] at hagrees
      have hfault : tree.firstFault? = some error := hagrees
      rw [hnone] at hfault
      cases hfault
    · rw [hrun] at hall
      rw [hcovers.nodes_eq, List.takeWhile_eq_self_iff]
      exact List.all_eq_true.mp hall.symm

end Expr

/-! ## The log -/

/-- The records of what the parser has used: those of all lexemes but the operators. -/
def eatRecords (used : List Lexeme) : List Event :=
  (used.filter (·.token.isRecorded)).map Event.ate

/-- The record of a value, if there is one. -/
def valueRecords (tree : Expr) : Except Error Int64 → List Event
  | .ok value => [.evaluated tree value]
  | .error _ => []

/-- At the most detailed level every record is shown. -/
theorem Event.isShown_trace (event : Event) : event.isShown .trace := by
  cases event <;> rfl

section Stages

variable {source : String} {final : Cursor}

/-- A text that is not parsed leaves the records of the parser. -/
theorem interpretRecorded_error {error : ParseError}
    (h : parseFrom 0 (.ofSource source) = (.error error, final)) :
    interpretRecorded source =
      ⟨final.eaten.toList.map Event.ate, .error (.ofParseError error)⟩ := by
  unfold interpretRecorded parseRecorded
  rw [h]

/-- A text that is parsed leaves the records of the parser and those of the evaluation. -/
theorem interpretRecorded_ok {tree : Expr}
    (h : parseFrom 0 (.ofSource source) = (.ok tree, final)) :
    interpretRecorded source =
      ⟨final.eaten.toList.map Event.ate ++ [.parsed tree, .understood source tree] ++
          tree.evaluation.visits.map Event.visited ++
          valueRecords tree (tree.evaluate.mapError Error.eval),
        tree.evaluate.mapError Error.eval⟩ := by
  unfold interpretRecorded parseRecorded evaluateRecorded Expr.evaluate
  rw [h]
  dsimp only
  cases tree.evaluation.outcome <;> simp [valueRecords, Except.mapError]

end Stages

/-- What is shown of a run at the most detailed level, in order: the integers and parentheses
that the parser has used; and, if the text is parsed, the tree, twice, the nodes of the tree that
have a value, in post-order up to the first that fails, and the value of the text, if it has one.
If the text is parsed, all that stands in front of the end of the input has been used. -/
theorem interpretRecorded_trace (source : String) :
    ∃ used, (Feed.ofSource source).Holds 0 used ∧
      (parseFrom 0 (.ofSource source)).2.next = used.length ∧
      match parse (.ofSource source) with
      | .error _ =>
        (interpretRecorded source).events.filter (Event.isShown .trace) = eatRecords used
      | .ok tree =>
        (∀ lexeme ∈ used, lexeme.token ≠ .eof) ∧
        (∃ position, (Feed.ofSource source).item used.length = some (.ok ⟨.eof, position⟩)) ∧
        ∃ visits, tree.Traced visits ∧
          (interpretRecorded source).events.filter (Event.isShown .trace) =
            eatRecords used ++ [.parsed tree, .understood source tree] ++
              visits.map Event.visited ++ valueRecords tree (interpret source) := by
  have hshown : (interpretRecorded source).events.filter (Event.isShown .trace) =
      (interpretRecorded source).events :=
    List.filter_eq_self.mpr fun event _ => event.isShown_trace
  obtain ⟨used, peeked, hpulls⟩ := exists_pulls (.ofSource source) 0
  refine ⟨used, hpulls.holds, by rw [hpulls.next_eq, Nat.zero_add], ?_⟩
  have heaten := hpulls.eaten_eq
  rw [hshown, parse, interpret]
  rcases hrun : parseFrom 0 (.ofSource source) with ⟨error | tree, final⟩
  · rw [hrun] at heaten
    show (interpretRecorded source).events = eatRecords used
    rw [interpretRecorded_error hrun, heaten]
    rfl
  · rw [hrun] at heaten hpulls
    obtain ⟨position, rfl⟩ := hpulls.peeks
    have hnext := hpulls.item_eq _ rfl
    rw [Nat.zero_add] at hnext
    refine ⟨hpulls.ne_eof, ⟨position, hnext⟩, tree.evaluation.visits, tree.traced_evaluation, ?_⟩
    rw [interpretRecorded_ok hrun, heaten]
    rfl

/-- A literal that stands alone is visited even if its value does not fit. -/
example :
    let tree := Expr.literal (.integer 9223372036854775808) 1
    (interpretRecorded "(9223372036854775808)").events =
      [.ate ⟨.lparen, 0⟩, .ate ⟨.integer 9223372036854775808, 1⟩, .ate ⟨.rparen, 20⟩,
        .parsed tree, .understood "(9223372036854775808)" tree,
        .visited ⟨tree, 9223372036854775808⟩] := by
  decide +kernel

end Abacus
