import Abacus.Event
import Abacus.Parser.Expression
import Abacus.Source

/-!
# Interpreting source texts

A source text is read, parsed and evaluated. The first error of any stage is
the result.

* `interpret` — the value of a source text.
* `interpretRecorded` — the same with the events recorded on the way.
* `parseRecorded`, `evaluateRecorded` — the two stages of it with their events.
-/

namespace Abacus

/-- A result and what was recorded on the way to it. -/
structure Recorded (α : Type) where
  events : List Event
  result : α

/-- Parses the input that starts at item `start` of a feed. The cursor shows
how far it was read. -/
def parseRecorded (start : Nat) (feed : Feed) : Recorded (Except ParseError Expr × Cursor) :=
  let outcome := parseFrom start feed
  let eaten := outcome.2.eaten.toList.map Event.ate
  match outcome.1 with
  | .ok tree => ⟨eaten ++ [.parsed tree], outcome⟩
  | .error _ => ⟨eaten, outcome⟩

/-- What is recorded does not change the outcome. -/
@[simp] theorem result_parseRecorded (start : Nat) (feed : Feed) :
    (parseRecorded start feed).result = parseFrom start feed := by
  unfold parseRecorded
  dsimp only
  split <;> rfl

/-- Evaluates a tree. -/
def evaluateRecorded (tree : Expr) : Recorded (Except EvalError Int64) :=
  ⟨tree.evaluation.visits.map Event.visited, tree.evaluation.outcome⟩

/-- Reads, parses and evaluates a source text. -/
def interpretRecorded (source : String) : Recorded (Except Error Int64) :=
  let parsed := parseRecorded 0 (.ofSource source)
  match parsed.result.1 with
  | .error error => ⟨parsed.events, .error (.ofParseError error)⟩
  | .ok tree =>
    let evaluated := evaluateRecorded tree
    let events := parsed.events ++ .understood source tree :: evaluated.events
    match evaluated.result with
    | .error error => ⟨events, .error (.eval error)⟩
    | .ok value => ⟨events ++ [.evaluated tree value], .ok value⟩

/-- The value of a source text. -/
def interpret (source : String) : Except Error Int64 :=
  (interpretRecorded source).result

/-- A source text is read and parsed, and its tree is evaluated. -/
theorem interpret_eq (source : String) :
    interpret source =
      match parse (.ofSource source) with
      | .error error => .error (.ofParseError error)
      | .ok tree =>
        match tree.evaluate with
        | .error error => .error (.eval error)
        | .ok value => .ok value := by
  unfold interpret interpretRecorded parseRecorded parse
  rcases h : (parseFrom 0 (Feed.ofSource source)).1 with error | tree
  · simp only [h]
  · simp only [h, evaluateRecorded, Expr.evaluate]
    cases tree.evaluation.outcome <;> rfl

end Abacus
