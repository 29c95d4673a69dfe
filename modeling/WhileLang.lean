import WhileLang.Analysis.Basic
import WhileLang.Analysis.Report
import WhileLang.CommandLine.Arguments
import WhileLang.CommandLine.Batch
import WhileLang.CommandLine.Help
import WhileLang.Files
import WhileLang.Grammar.Error
import WhileLang.Grammar.Expression
import WhileLang.Grammar.Parser
import WhileLang.Grammar.Program
import WhileLang.Grammar.Recursion
import WhileLang.Log.Filter
import WhileLang.Log.FilterText
import WhileLang.Log.Record
import WhileLang.Main
import WhileLang.Pattern.Basic
import WhileLang.Pattern.Check
import WhileLang.Pattern.Class
import WhileLang.Position
import WhileLang.Screen.Canvas
import WhileLang.Screen.Style
import WhileLang.Text.CharStream
import WhileLang.Text.Columns
import WhileLang.Text.Lines
import WhileLang.Text.Unicode
import WhileLang.Text.Wide
import WhileLang.Token.Basic
import WhileLang.Token.Lexer
import WhileLang.Token.Scanner
import WhileLang.Token.Stream
import WhileLang.Tree.Basic
import WhileLang.Tree.Builder
import WhileLang.Tree.OneLine
import WhileLang.Tree.Traversal
import WhileLang.Viewer.Basic
import WhileLang.Viewer.Highlight
import WhileLang.Viewer.Panes
import WhileLang.Viewer.Scroll
import WhileLang.Viewer.Theme
import WhileLang.Proofs.Building.Grafting
import WhileLang.Proofs.Building.Shapes
import WhileLang.Proofs.Diagnostics
import WhileLang.Proofs.Language.Grammar
import WhileLang.Proofs.Language.Sentences
import WhileLang.Proofs.Language.Trees
import WhileLang.Proofs.Language.WellFormed
import WhileLang.Proofs.Language.Writing
import WhileLang.Proofs.Lexing.Cursor
import WhileLang.Proofs.Lexing.Gaps
import WhileLang.Proofs.Lexing.Joining
import WhileLang.Proofs.Lexing.Lines
import WhileLang.Proofs.Lexing.Partition
import WhileLang.Proofs.Lexing.Pieces
import WhileLang.Proofs.Lexing.Positions
import WhileLang.Proofs.Lexing.Pushback
import WhileLang.Proofs.Lexing.Scanning
import WhileLang.Proofs.Lexing.Separation
import WhileLang.Proofs.Lexing.Spelling
import WhileLang.Proofs.Parsing.Accounting
import WhileLang.Proofs.Parsing.Calls
import WhileLang.Proofs.Parsing.Completeness
import WhileLang.Proofs.Parsing.Correctness
import WhileLang.Proofs.Parsing.Exits
import WhileLang.Proofs.Parsing.Expressions
import WhileLang.Proofs.Parsing.FirstError
import WhileLang.Proofs.Parsing.Layout
import WhileLang.Proofs.Parsing.Parallel
import WhileLang.Proofs.Parsing.ParallelRules
import WhileLang.Proofs.Parsing.Precedence
import WhileLang.Proofs.Parsing.Programs
import WhileLang.Proofs.Parsing.Reading
import WhileLang.Proofs.Parsing.Runs
import WhileLang.Proofs.Parsing.Successive
import WhileLang.Proofs.Parsing.Trailing
import WhileLang.Proofs.RoundTrip
import WhileLang.Proofs.Parsing.Descent
import WhileLang.Proofs.Parsing.DescentRules
import WhileLang.Proofs.Tracing.Procedures
import WhileLang.Proofs.Tracing.Toggles
import WhileLang.Proofs.Tracing.Tokens
import WhileLang.Proofs.Progress
import WhileLang.Proofs.CommandLine.Arguments
import WhileLang.Proofs.CommandLine.Batches
import WhileLang.Proofs.Building.Visiting
import WhileLang.Proofs.Language.Adjacency
import WhileLang.Proofs.Parsing.Announcing
import WhileLang.Proofs.Parsing.AnnouncingRules
import WhileLang.Proofs.Parsing.Expectations
import WhileLang.Proofs.Viewing.Entries
import WhileLang.Proofs.Viewing.Lines
import WhileLang.Proofs.Viewing.Windows
import WhileLang.Proofs.Building.Growing
import WhileLang.Proofs.Language.OneLine
import WhileLang.Proofs.Parsing.Cursors
import WhileLang.Proofs.Reporting.Tokens
import WhileLang.Proofs.Building.Keeping
import WhileLang.Proofs.Language.Rows
import WhileLang.Proofs.Viewing.Highlighting
import WhileLang.Proofs.Viewing.HighlightedTokens
import WhileLang.Proofs.Building.Places
import WhileLang.Proofs.Building.Rendering
import WhileLang.Proofs.Lexing.CharacterLists
import WhileLang.Proofs.Parsing.Parentheses
