import Abacus.Interpret
import Abacus.CommandLine.Settings

/-!
# Reporting on an expression

* `Output` — what is written to the two output streams.
* `report` — the output for one expression, and whether it has a value.
* `caretLine` — the line that points at the place of an error.
-/

namespace Abacus

/-- Text for the standard output and for the error output. -/
structure Output where
  out : String
  err : String
deriving DecidableEq, Repr, Inhabited

namespace Output

/-- Nothing at all. -/
def empty : Output := ⟨"", ""⟩

/-- Text for the standard output alone. -/
def ofOut (text : String) : Output := ⟨text, ""⟩

/-- Text for the error output alone. -/
def ofErr (text : String) : Output := ⟨"", text⟩

/-- One output after another. -/
def append (first second : Output) : Output :=
  ⟨first.out ++ second.out, first.err ++ second.err⟩

instance : Append Output := ⟨append⟩

end Output

/-! ## The log -/

/-- The level up to which events are shown. Warnings and errors always are. -/
def Settings.level (settings : Settings) : Event.Level :=
  match settings.verbosity with
  | 0 => .warn
  | 1 => .info
  | 2 => .debug
  | _ => .trace

/-- The number of the terminal colour that a level is shown in. -/
def Event.Level.colour : Event.Level → String
  | .error => "31"
  | .warn => "33"
  | .info => "32"
  | .debug => "34"
  | .trace => "35"

/-- The text filled up with spaces on the right. -/
def padRight (width : Nat) (text : String) : String :=
  text ++ String.ofList (List.replicate (width - text.length) ' ')

/-- The text filled up with spaces on the left. -/
def padLeft (width : Nat) (text : String) : String :=
  String.ofList (List.replicate (width - text.length) ' ') ++ text

/-- An event as a line of the log. -/
def Event.line (event : Event) : String :=
  "\x1b[" ++ event.level.colour ++ "m" ++ padRight 5 event.level.name ++ "\x1b[0m [" ++
    event.target ++ "] " ++ event.message ++ "\n"

/-- The lines of the events that are shown. -/
def Settings.log (settings : Settings) (events : List Event) : Output :=
  .ofErr (String.join ((events.filter (Event.isShown settings.level)).map Event.line))

/-! ## Expressions -/

/-- A token as a line of the token table. -/
def Lexeme.line (lexeme : Lexeme) : String :=
  padLeft 4 (toString lexeme.position) ++ "  " ++ lexeme.token.display ++ "\n"

/-- The tokens of a source text, one a line. An error of the text is not shown
here. -/
def tokenTable (source : String) : String :=
  String.join ((Source.items source).map fun
    | .ok lexeme => lexeme.line
    | .error _ => "")

/-- The line that, printed under a text, points at the character at a byte
offset: as many spaces as there are characters in front of it. -/
def caretLine (source : String) (position : Nat) : String :=
  String.ofList (List.replicate ((Text.column? position source.toList).getD 0) ' ') ++ "^"

/-- An error of a source text, with the text above it if the error has a
place. -/
def errorText (source : String) (error : Error) : String :=
  (match error.position with
    | some position => source ++ "\n" ++ caretLine source position ++ "\n"
    | none => "") ++ error.message ++ "\n"

/-- A result and the output on the way to it. -/
structure Attempt where
  result : Except Error Int64
  output : Output

/-- Reads, parses and evaluates a source text, and shows what is asked for on
the way. -/
def attempt (settings : Settings) (source : String) : Attempt :=
  let table := Output.ofOut (if settings.tokens then tokenTable source else "")
  let parsed := parseRecorded 0 (.ofSource source)
  let output := table ++ settings.log parsed.events
  match parsed.result.1 with
  | .error error => ⟨.error (.ofParseError error), output⟩
  | .ok tree =>
    let shown := Output.ofOut (if settings.tree then tree.render ++ "\n" else "")
    let evaluated := evaluateRecorded tree
    let output := output ++ shown ++ settings.log evaluated.events
    match evaluated.result with
    | .error error => ⟨.error (.eval error), output⟩
    | .ok value => ⟨.ok value, output⟩

/-- The output for one source text, ending with its value or its error, and
whether it has a value. -/
def report (settings : Settings) (source : String) : Bool × Output :=
  let attempted := attempt settings source
  match attempted.result with
  | .ok value => (true, attempted.output ++ .ofOut (toString value.toInt ++ "\n"))
  | .error error => (false, attempted.output ++ .ofErr (errorText source error))

end Abacus
