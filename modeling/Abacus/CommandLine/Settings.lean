/-!
# Arguments

* `Settings` — what a user asks for.
* `Invocation` — what a list of arguments means: to run with some settings, to
  print the help or the version, or nothing.
* `Invocation.Flag` — the flags, each with its letter, its word and what the help
  says of it.
* `Invocation.ofArguments` — arguments are read from left to right, and the
  first one that settles the meaning does so for all.

Flags take no value. All but the one for the log are given at most once.
-/

namespace Abacus

/-- What a user asks for. -/
structure Settings where
  /-- The contents name a file of expressions. -/
  file : Bool
  /-- Show the tokens of each expression. -/
  tokens : Bool
  /-- Show the tree of each expression. -/
  tree : Bool
  /-- How much of the log to show. -/
  verbosity : Nat
  /-- The expression, or the name of the file. -/
  contents : Option String
deriving DecidableEq, Repr, Inhabited

namespace Settings

/-- The settings if no arguments are given. -/
def default : Settings := ⟨false, false, false, 0, none⟩

end Settings

/-- What a list of arguments means. -/
inductive Invocation where
  | run (settings : Settings)
  | help
  | version
  | misuse
deriving DecidableEq, Repr, Inhabited

namespace Invocation

/-- The flags. -/
inductive Flag where
  | file
  | tokens
  | tree
  | verbose
  | help
  | version
deriving DecidableEq, Repr

namespace Flag

/-- All flags, in the order of the help. -/
def all : List Flag := [file, tokens, tree, verbose, help, version]

def letter : Flag → Char
  | file => 'f'
  | tokens => 't'
  | tree => 'a'
  | verbose => 'v'
  | help => 'h'
  | version => 'V'

def word : Flag → String
  | file => "file"
  | tokens => "tokens"
  | tree => "ast"
  | verbose => "verbose"
  | help => "help"
  | version => "version"

/-- What the help says of a flag. -/
def about : Flag → String
  | file => "Treat `contents` as a path and evaluate every non-empty line of it"
  | tokens => "Print the token stream before the result"
  | tree => "Print the parsed tree before the result"
  | verbose => "Increase log verbosity (-v info, -vv debug, -vvv trace)"
  | help => "Print help"
  | version => "Print version"

/-- The flag of one letter. -/
def ofLetter? (letter : Char) : Option Flag := all.find? (·.letter = letter)

/-- The flag of a whole word, which is not abbreviated. -/
def ofWord? (word : String) : Option Flag := all.find? (·.word = word)

end Flag

/-- Settings with one more flag, or the meaning that the flag settles. -/
def setFlag (settings : Settings) : Flag → Except Invocation Settings
  | .file => if settings.file then .error .misuse else .ok { settings with file := true }
  | .tokens => if settings.tokens then .error .misuse else .ok { settings with tokens := true }
  | .tree => if settings.tree then .error .misuse else .ok { settings with tree := true }
  | .verbose => .ok { settings with verbosity := settings.verbosity + 1 }
  | .help => .error .help
  | .version => .error .version

/-- Settings with the flags of a cluster of letters, such as `ta`. -/
def setLetters (settings : Settings) : List Char → Except Invocation Settings
  | [] => .ok settings
  | letter :: letters =>
    match Flag.ofLetter? letter with
    | none => .error .misuse
    | some flag =>
      match setFlag settings flag with
      | .error invocation => .error invocation
      | .ok settings => setLetters settings letters

/-- Settings with the contents, which are given at most once. -/
def setContents (settings : Settings) (contents : String) : Except Invocation Settings :=
  match settings.contents with
  | none => .ok { settings with contents := some contents }
  | some _ => .error .misuse

/-- Settings with one more argument. What begins with a hyphen is a flag unless
`--` came before, but a lone hyphen is not. -/
def setArgument (settings : Settings) (argument : String) : Except Invocation Settings :=
  match argument.toList with
  | '-' :: '-' :: word =>
    match Flag.ofWord? (String.ofList word) with
    | none => .error .misuse
    | some flag => setFlag settings flag
  | '-' :: letter :: letters => setLetters settings (letter :: letters)
  | _ => setContents settings argument

/-- Adds arguments one by one; `flags` tells whether flags may still come. -/
def addArguments (flags : Bool) (settings : Settings) : List String → Invocation
  | [] => .run settings
  | argument :: arguments =>
    if flags && argument = "--" then
      addArguments false settings arguments
    else
      match if flags then setArgument settings argument else setContents settings argument with
      | .error invocation => invocation
      | .ok settings => addArguments flags settings arguments

/-- What the arguments of a command mean. -/
def ofArguments (arguments : List String) : Invocation :=
  addArguments true .default arguments

end Invocation

end Abacus
