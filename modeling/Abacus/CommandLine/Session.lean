import Abacus.CommandLine.Report
import Abacus.Text.Blank
import Abacus.Text.Lines

/-!
# Sessions

A command evaluates one expression, the lines of a file, or what the user types
at a prompt.

* `evaluateLines` — the lines of a text; blank ones are passed over.
* `promptTurn`, `prompt` — one answer at the prompt, and all of them.
* `respond` — everything that a command does: its exit status and output, given
  its arguments, the files and the standard input.
-/

namespace Abacus

/-! ## Lines of a file -/

/-- Reports on each source text in turn. A failure does not stop the rest, but
is remembered. -/
def reportAll (settings : Settings) : List String → Bool × Output
  | [] => (true, .empty)
  | source :: sources =>
    -- The rest is reported on whether or not this one has a value.
    let first := report settings source
    let rest := reportAll settings sources
    (first.1 && rest.1, first.2 ++ rest.2)

/-- The expressions of a text: its lines without the white space around them,
and without the blank ones. -/
def expressions (text : String) : List String :=
  ((Text.lines text).map Text.trim).filter (· ≠ "")

/-- Reports on the expressions of a text. -/
def evaluateLines (settings : Settings) (text : String) : Bool × Output :=
  reportAll settings (expressions text)

/-! ## The prompt -/

/-- What asks the user for a line. -/
def promptText : String := "calc> "

/-- The answer to one line, given as bytes, and whether the prompt goes on. It
does unless the line is not text. -/
def promptTurn (settings : Settings) (line : List UInt8) : Bool × Output :=
  match String.fromUTF8? ⟨line.toArray⟩ with
  | none => (false, settings.log [.inputUnreadable])
  | some text =>
    let source := Text.trim text
    (true, if source = "" then .empty else (report settings source).2)

/-- The prompt is shown before each line and once more at the end of the
input. -/
def promptTurns (settings : Settings) : List (List UInt8) → Output
  | [] => .ofOut promptText
  | line :: lines =>
    let turn := promptTurn settings line
    .ofOut promptText ++ turn.2 ++ (if turn.1 then promptTurns settings lines else .empty)

/-- The lines of an input of bytes, each with the newline that ends it. -/
def inputLines (input : ByteArray) : List (List UInt8) :=
  Text.segments (· = 10) input.data.toList

/-- A whole conversation. -/
def prompt (settings : Settings) (input : ByteArray) : Output :=
  settings.log [.prompting] ++ promptTurns settings (inputLines input)

/-! ## Commands -/

/-- What a command leaves behind. -/
structure Response where
  status : Nat
  output : Output
deriving DecidableEq, Repr, Inhabited

/-- The exit status of a command that has evaluated expressions. -/
def statusOf (succeeded : Bool) : Nat := if succeeded then 0 else 1

/-- The name and number of the program. -/
def versionText : String := "spi 0.1.0\n"

/-- How the command is to be called. -/
def usageText : String := "Usage: spi [OPTIONS] [CONTENTS]\n"

/-- A flag and what it is for, on one line. -/
def flagText (flag : Invocation.Flag) : String :=
  let repeats := if flag = .verbose then "..." else ""
  let names := "-" ++ flag.letter.toString ++ ", --" ++ flag.word ++ repeats
  "  " ++ names ++ String.ofList (List.replicate (18 - names.length) ' ') ++ flag.about ++ "\n"

/-- The help. -/
def helpText : String :=
  "A small integer arithmetic interpreter: lexer, recursive-descent parser and tree-walking " ++
    "evaluator.\n\n" ++ usageText ++
    "\nArguments:\n  [CONTENTS]  The expression to evaluate, or a file path with `--file`\n" ++
    "\nOptions:\n" ++ String.join (Invocation.Flag.all.map flagText)

/-- What every user is told at last who gives arguments without a meaning. A line about the
argument comes before it, which is left out here. -/
def misuseText : String := usageText ++ "\nFor more information, try '--help'.\n"

/-- What the user is told whose file cannot be read. -/
def unreadableFile (name : String) : String :=
  "Failed to read the input file '" ++ name ++ "'. Perhaps this file does not exist?\n"

/-- The response for one file, given its bytes if it can be read. -/
def respondFile (settings : Settings) (name : String) (bytes : Option ByteArray) : Response :=
  match bytes.bind String.fromUTF8? with
  | none => ⟨1, .ofErr (unreadableFile name)⟩
  | some text =>
    let outcome := evaluateLines settings text
    ⟨statusOf outcome.1, outcome.2⟩

/-- The response for one expression. -/
def respondExpression (settings : Settings) (source : String) : Response :=
  let outcome := report settings source
  ⟨statusOf outcome.1, outcome.2⟩

/-- The response to a user who asks for the version. -/
def versionResponse : Response := ⟨0, .ofOut versionText⟩

/-- The response to a user who asks for help. -/
def helpResponse : Response := ⟨0, .ofOut helpText⟩

/-- The response to arguments without a meaning. -/
def misuseResponse : Response := ⟨2, .ofErr misuseText⟩

/-- What a command does, given its arguments, the contents of the files that
can be read, and the standard input. -/
def respond (arguments : List String) (files : String → Option ByteArray) (input : ByteArray) :
    Response :=
  match Invocation.ofArguments arguments with
  | .help => helpResponse
  | .version => versionResponse
  | .misuse => misuseResponse
  | .run settings =>
    match settings.contents with
    | none => ⟨0, prompt settings input⟩
    | some contents =>
      if settings.file then respondFile settings contents (files contents)
      else respondExpression settings contents

end Abacus
