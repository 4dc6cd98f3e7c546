import Abacus.Token
import Abacus.Error
import Abacus.Text.Offset
import Abacus.Text.Blank
import Abacus.Text.Lines
import Abacus.Text.Quoted
import Abacus.Feed
import Abacus.Source
import Abacus.Parser.Basic
import Abacus.Parser.Expression
import Abacus.Expr
import Abacus.Word
import Abacus.Expr.Eval
import Abacus.Event
import Abacus.Interpret
import Abacus.CommandLine.Settings
import Abacus.CommandLine.Report
import Abacus.CommandLine.Session
import Abacus.Main
import Abacus.Proofs.Grammar
import Abacus.Proofs.Grammar.Prefix
import Abacus.Proofs.Grammar.Listing
import Abacus.Proofs.Reading
import Abacus.Proofs.Parser.Run
import Abacus.Proofs.Parser.Outcome
import Abacus.Proofs.Parser.Acceptance
import Abacus.Proofs.Parser.Rejection
import Abacus.Proofs.Parser.Reach
import Abacus.Proofs.Parser.Unlimited
import Abacus.Proofs.Parser.Ending
import Abacus.Proofs.Parser.Limits
import Abacus.Proofs.Word
import Abacus.Proofs.Word.Floor
import Abacus.Proofs.Evaluation
import Abacus.Proofs.Overflow
import Abacus.Proofs.Folding
import Abacus.Proofs.Scan
import Abacus.Proofs.Stream
import Abacus.Proofs.Relocation
import Abacus.Proofs.Whitespace
import Abacus.Proofs.Decomposition
import Abacus.Proofs.Parts
import Abacus.Proofs.Printing
import Abacus.Proofs.Rendering
import Abacus.Proofs.Interpretation
import Abacus.Proofs.Lexemes
import Abacus.Proofs.Flat
import Abacus.Proofs.Contents
import Abacus.Proofs.Embedding
import Abacus.Proofs.Diagnostics
import Abacus.Proofs.Parser.Consumption
import Abacus.Proofs.Parser.Lookahead
import Abacus.Proofs.FailFast
import Abacus.Proofs.Unreachable
import Abacus.Proofs.Lines
import Abacus.Proofs.Session
import Abacus.Proofs.Caret
import Abacus.Proofs.Readability
import Abacus.Proofs.Numerals
import Abacus.Proofs.Parser.Sequence
import Abacus.Proofs.Parser.Height
import Abacus.Proofs.Trace
