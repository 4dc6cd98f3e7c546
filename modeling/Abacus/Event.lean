import Abacus.Expr.Eval
import Abacus.Text.Quoted

/-!
# Events

What a run records about itself, for a log.

* `Event` — the things that are recorded.
* `Event.Level` — how much a reader has to want to know to be shown an event.
* `Event.target`, `Event.message` — where an event belongs and what it says.
-/

namespace Abacus

/-- Something that a run records. -/
inductive Event where
  /-- The parser has used an integer or a parenthesis. -/
  | ate (lexeme : Lexeme)
  /-- The parser has read a whole input. -/
  | parsed (tree : Expr)
  /-- A node has been given a value. -/
  | visited (visit : Visit)
  /-- A source text has been parsed. -/
  | understood (source : String) (tree : Expr)
  /-- The tree of a source text has been evaluated. -/
  | evaluated (tree : Expr) (value : Int64)
  /-- There is nothing to evaluate, so the user is asked. -/
  | prompting
  /-- A line of the user is not text. -/
  | inputUnreadable
deriving DecidableEq, Repr

namespace Event

/-- Levels, from the most urgent to the most detailed. -/
inductive Level where
  | error
  | warn
  | info
  | debug
  | trace
deriving DecidableEq, Repr, Inhabited

namespace Level

/-- The place of a level in the order from urgent to detailed. -/
def rank : Level → Nat
  | .error => 0
  | .warn => 1
  | .info => 2
  | .debug => 3
  | .trace => 4

/-- The name a level has in a log. -/
def name : Level → String
  | .error => "ERROR"
  | .warn => "WARN"
  | .info => "INFO"
  | .debug => "DEBUG"
  | .trace => "TRACE"

end Level

/-- How detailed an event is. -/
def level : Event → Level
  | .ate _ => .trace
  | .parsed _ => .trace
  | .visited _ => .trace
  | .understood _ _ => .debug
  | .evaluated _ _ => .debug
  | .prompting => .info
  | .inputUnreadable => .error

/-- The part of the program that an event belongs to. -/
def target : Event → String
  | .ate _ => "spi::interpreter::parser::utils"
  | .parsed _ => "spi::interpreter::parser::core"
  | .visited _ => "spi::interpreter::evaluator::core"
  | .understood _ _ => "spi"
  | .evaluated _ _ => "spi"
  | .prompting => "spi"
  | .inputUnreadable => "spi"

/-- What an event says. -/
def message : Event → String
  | .ate lexeme => "eat " ++ lexeme.token.display ++ " at " ++ toString lexeme.position
  | .parsed tree => "parsed " ++ tree.render
  | .visited visit => visit.node.render ++ " => " ++ toString visit.value.toInt
  | .understood source tree => "parsed " ++ Text.quote source ++ " into " ++ tree.render
  | .evaluated tree value => "evaluated " ++ tree.render ++ " to " ++ toString value.toInt
  | .prompting => "No expression given, starting interactive prompt"
  | .inputUnreadable => "Failed to read from stdin: stream did not contain valid UTF-8"

/-- Whether a reader who wants events up to `level` is shown this one. -/
def isShown (level : Level) (event : Event) : Bool :=
  event.level.rank ≤ level.rank

end Event

end Abacus
