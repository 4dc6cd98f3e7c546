/-!
# Tokens

The words of an arithmetic expression, with or without the place they were
found at.

* `Token` — an integer, an operator, a parenthesis or the end of the input.
* `Token.Kind` — a token without its value; parse errors name what was expected
  by kind.
* `Token.literal` — the text of a token; scanning it gives the token back.
* `Lexeme` — a token and the byte offset where its text starts.
-/

namespace Abacus

/-- A token. Integers are unsigned 64-bit words: a sign is a token of its own. -/
inductive Token where
  | integer (value : UInt64)
  | plus
  | minus
  | times
  | divide
  | lparen
  | rparen
  | eof
deriving DecidableEq, Repr, Inhabited

namespace Token

/-- A token without its value. -/
inductive Kind where
  | integer
  | plus
  | minus
  | times
  | divide
  | lparen
  | rparen
  | eof
deriving DecidableEq, Repr, Inhabited

/-- The name a kind has in messages. -/
def Kind.name : Kind → String
  | .integer => "INTEGER"
  | .plus => "PLUS"
  | .minus => "MINUS"
  | .times => "MUL"
  | .divide => "DIV"
  | .lparen => "LPAREN"
  | .rparen => "RPAREN"
  | .eof => "EOF"

/-- The kind of a token. -/
def kind : Token → Kind
  | .integer _ => .integer
  | .plus => .plus
  | .minus => .minus
  | .times => .times
  | .divide => .divide
  | .lparen => .lparen
  | .rparen => .rparen
  | .eof => .eof

/-- The text of a token: the shortest decimal of an integer, the character of
an operator or parenthesis, and nothing for the end of the input. -/
def literal : Token → String
  | .integer value => toString value.toNat
  | .plus => "+"
  | .minus => "-"
  | .times => "*"
  | .divide => "/"
  | .lparen => "("
  | .rparen => ")"
  | .eof => ""

/-- How a token is shown in messages, such as `Token(INTEGER, 42)`. -/
def display (token : Token) : String :=
  "Token(" ++ token.kind.name ++ ", " ++ token.literal ++ ")"

/-- The token that the character `c` is the whole text of, if there is one. -/
def ofChar? (c : Char) : Option Token :=
  match c with
  | '+' => some .plus
  | '-' => some .minus
  | '*' => some .times
  | '/' => some .divide
  | '(' => some .lparen
  | ')' => some .rparen
  | _ => none

/-- The tokens `+` and `-`: the signs, and the operators that bind weakest. -/
def isAdditive : Token → Bool
  | .plus | .minus => true
  | _ => false

/-- The tokens `*` and `/`. -/
def isMultiplicative : Token → Bool
  | .times | .divide => true
  | _ => false

end Token

/-- A token and the byte offset where its text starts. -/
structure Lexeme where
  token : Token
  position : Nat
deriving DecidableEq, Repr, Inhabited

end Abacus
