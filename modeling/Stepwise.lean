import Stepwise.Check
import Stepwise.Compilation
import Stepwise.Console
import Stepwise.Decimal.Layout
import Stepwise.Decimal.Nearest
import Stepwise.Decimal.Numeral
import Stepwise.Decimal.Shortest
import Stepwise.Depth
import Stepwise.Diagnostic
import Stepwise.Expr.Basic
import Stepwise.Expr.OfTokens
import Stepwise.Instruction
import Stepwise.Json.Basic
import Stepwise.Json.Field
import Stepwise.Json.Parse
import Stepwise.Json.Program
import Stepwise.Json.Report
import Stepwise.Json.Scan
import Stepwise.Json.Value
import Stepwise.Machine
import Stepwise.Proofs.Acceptance
import Stepwise.Proofs.Agreement
import Stepwise.Proofs.Budget
import Stepwise.Proofs.Classification
import Stepwise.Proofs.Clauses
import Stepwise.Proofs.Clean
import Stepwise.Proofs.Compiled
import Stepwise.Proofs.Composition
import Stepwise.Proofs.Counters
import Stepwise.Proofs.Counting
import Stepwise.Proofs.Digits
import Stepwise.Proofs.Display
import Stepwise.Proofs.Enclosing
import Stepwise.Proofs.Erasure
import Stepwise.Proofs.Evaluated
import Stepwise.Proofs.Exhaustion
import Stepwise.Proofs.ForwardScan
import Stepwise.Proofs.Grammar
import Stepwise.Proofs.Iteration
import Stepwise.Proofs.JsonForms
import Stepwise.Proofs.JsonNumbers
import Stepwise.Proofs.JsonText
import Stepwise.Proofs.Kinds
import Stepwise.Proofs.Layout
import Stepwise.Proofs.Leftovers
import Stepwise.Proofs.Lexemes
import Stepwise.Proofs.LineBreaks
import Stepwise.Proofs.LineTable
import Stepwise.Proofs.Located
import Stepwise.Proofs.LoopWords
import Stepwise.Proofs.Matching
import Stepwise.Proofs.Meaning
import Stepwise.Proofs.NestingCounter
import Stepwise.Proofs.NoWrap
import Stepwise.Proofs.Numerals
import Stepwise.Proofs.Operands
import Stepwise.Proofs.Places
import Stepwise.Proofs.Precedence
import Stepwise.Proofs.Printing
import Stepwise.Proofs.Progress
import Stepwise.Proofs.Readers
import Stepwise.Proofs.Replay
import Stepwise.Proofs.Reprinting
import Stepwise.Proofs.Reserved
import Stepwise.Proofs.Rounding
import Stepwise.Proofs.Segments
import Stepwise.Proofs.Shapes
import Stepwise.Proofs.Sizes
import Stepwise.Proofs.SourceOrder
import Stepwise.Proofs.Tokenization
import Stepwise.Proofs.TraceLog
import Stepwise.Proofs.WellFormed
import Stepwise.Reading
import Stepwise.Session
import Stepwise.Source
import Stepwise.Span
import Stepwise.Stmt.Basic
import Stepwise.Stmt.OfTokens
import Stepwise.Store
import Stepwise.Text.Blank
import Stepwise.Token.Basic
import Stepwise.Token.Scan
import Stepwise.Value
