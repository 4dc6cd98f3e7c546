import Abacus.Token

/-!
# Errors

What can go wrong, by cause, and the one wording of each cause.

* `LexError`, `ParseError`, `EvalError` — the errors of the three stages.
* `Error` — an error of any stage, with its `kind`, `position`, `message` and
  `causes`.
* `Error.ofParseError` — a lexical error met while parsing counts as an error
  of the text, not of its structure.

Positions are byte offsets into the source text.
-/

namespace Abacus

/-! ## Reading tokens -/

/-- Errors met while splitting a text into tokens. -/
inductive LexError where
  /-- A character that starts no token. -/
  | unexpectedCharacter (character : Char) (position : Nat)
  /-- A run of digits, as written, whose value needs more than 64 bits. -/
  | literalTooLarge (literal : String) (position : Nat)
deriving DecidableEq, Repr, Inhabited

/-- Where a message says the error is. -/
def errorAt (position : Nat) : String :=
  "Error at position " ++ toString position ++ ": "

namespace LexError

/-- Where the offending text starts. -/
def position : LexError → Nat
  | .unexpectedCharacter _ position => position
  | .literalTooLarge _ position => position

/-- The error in words. -/
def message : LexError → String
  | .unexpectedCharacter character position =>
    errorAt position ++ "Unexpected character '" ++ character.toString ++ "'."
  | .literalTooLarge literal position =>
    errorAt position ++ "Literal " ++ literal ++ " is too large."

end LexError

/-! ## Building a tree -/

/-- Errors met while building a tree from tokens. -/
inductive ParseError where
  /-- A token that the grammar does not allow here, and the kinds it does. -/
  | unexpectedToken (expected : List Token.Kind) (found : Token) (position : Nat)
  /-- A complete expression is followed by something else than the end. -/
  | unexpectedTrailingTokens (found : Token) (position : Nat)
  /-- Too many enclosing signs and parentheses, or too tall a tree. -/
  | nestingTooDeep (position : Nat)
  /-- The feed ended without an end-of-input token. -/
  | unexpectedEndOfInput
  /-- The feed reported an error of its own. -/
  | lexical (error : LexError)
deriving DecidableEq, Repr, Inhabited

namespace ParseError

/-- Where the offending token starts. The end of a feed has no position. -/
def position : ParseError → Option Nat
  | .unexpectedToken _ _ position => some position
  | .unexpectedTrailingTokens _ position => some position
  | .nestingTooDeep position => some position
  | .unexpectedEndOfInput => none
  | .lexical error => some error.position

/-- The names after the first: all but the last follow a comma. -/
def alternatives : List Token.Kind → String
  | [] => ""
  | [last] => " or " ++ last.name
  | kind :: kinds => ", " ++ kind.name ++ alternatives kinds

/-- A list of kinds in words: `nothing`, `A`, `A or B`, `A, B or C`. -/
def describe : List Token.Kind → String
  | [] => "nothing"
  | kind :: kinds => kind.name ++ alternatives kinds

/-- The error in words. An error of the feed keeps its own. -/
def message : ParseError → String
  | .unexpectedToken expected found position =>
    errorAt position ++ "Expected " ++ describe expected ++ ", got " ++ found.display ++ "."
  | .unexpectedTrailingTokens found position =>
    errorAt position ++ "Extra tokens after expression, starting with " ++ found.display ++ "."
  | .nestingTooDeep position => errorAt position ++ "Expression is nested too deeply."
  | .unexpectedEndOfInput => "Error: Token stream ended before end of input."
  | .lexical error => error.message

/-- The messages of the errors that this one wraps, outermost first. -/
def causes : ParseError → List String
  | .lexical error => [error.message]
  | _ => []

end ParseError

/-! ## Computing a value -/

/-- Errors met while evaluating a tree. -/
inductive EvalError where
  /-- The right operand of the `/` at this position is zero. -/
  | divisionByZero (position : Nat)
  /-- A result does not fit into a signed 64-bit word. -/
  | overflow (position : Nat)
  /-- A node holds a token that no parsed tree has there. -/
  | internal (details : String) (position : Nat)
deriving DecidableEq, Repr, Inhabited

namespace EvalError

/-- Where the token of the failing node starts. -/
def position : EvalError → Nat
  | .divisionByZero position => position
  | .overflow position => position
  | .internal _ position => position

/-- The error in words. -/
def message : EvalError → String
  | .divisionByZero position => errorAt position ++ "Division by zero."
  | .overflow position =>
    errorAt position ++ "Integer overflow while trying to compute result."
  | .internal details position =>
    "Internal error at position " ++ toString position ++ ": " ++ details ++ "."

end EvalError

/-! ## All stages -/

/-- An error of any stage. -/
inductive Error where
  | lex (error : LexError)
  | parse (error : ParseError)
  | eval (error : EvalError)
deriving DecidableEq, Repr, Inhabited

namespace Error

/-- The category of an error. -/
inductive Kind where
  | lex
  | parse
  | divisionByZero
  | overflow
  | internal
deriving DecidableEq, Repr, Inhabited

/-- The category that an error falls into. -/
def kind : Error → Kind
  | .lex _ => .lex
  | .parse _ => .parse
  | .eval (.divisionByZero _) => .divisionByZero
  | .eval (.overflow _) => .overflow
  | .eval (.internal _ _) => .internal

/-- The place in the source text that an error refers to, if there is one. -/
def position : Error → Option Nat
  | .lex error => some error.position
  | .parse error => error.position
  | .eval error => some error.position

/-- The error in words, which are those of its stage. -/
def message : Error → String
  | .lex error => error.message
  | .parse error => error.message
  | .eval error => error.message

/-- The messages of the errors that this one wraps, outermost first. The error
of the stage is the first of them. -/
def causes : Error → List String
  | .lex error => [error.message]
  | .parse error => error.message :: error.causes
  | .eval error => [error.message]

/-- A lexical error met while parsing is an error of the text. -/
def ofParseError : ParseError → Error
  | .lexical error => .lex error
  | error => .parse error

end Error

end Abacus
