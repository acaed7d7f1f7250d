import CallChain.Bindings
import CallChain.Catalog
import CallChain.Chain.Finding
import CallChain.Chain.Link
import CallChain.Chain.Options
import CallChain.Chain.Rule
import CallChain.Command.Arguments
import CallChain.Command.Output
import CallChain.Command.Run
import CallChain.Config
import CallChain.Config.Reading
import CallChain.Decimal.Nearest
import CallChain.Directive
import CallChain.Edit
import CallChain.Exclude.Pattern
import CallChain.FileContext
import CallChain.FileTree
import CallChain.FrontEnd
import CallChain.Ignore.Level
import CallChain.Ignore.Pattern
import CallChain.Ignore.Rule
import CallChain.JavaScript.Abstraction
import CallChain.JavaScript.Concrete
import CallChain.JavaScript.FrontEnd
import CallChain.JavaScript.Grammar.Basic
import CallChain.JavaScript.Grammar.Expression
import CallChain.JavaScript.Grammar.Function
import CallChain.JavaScript.Grammar.Literal
import CallChain.JavaScript.Grammar.Markup
import CallChain.JavaScript.Grammar.Module
import CallChain.JavaScript.Grammar.Operator
import CallChain.JavaScript.Grammar.Pattern
import CallChain.JavaScript.Grammar.Statement
import CallChain.JavaScript.Lexeme
import CallChain.JavaScript.Place
import CallChain.JavaScript.Reader
import CallChain.JavaScript.Semicolon
import CallChain.JavaScript.Walk
import CallChain.Json
import CallChain.Linter
import CallChain.Linter.Setup
import CallChain.Main
import CallChain.Path
import CallChain.Project
import CallChain.Proofs.Chain.Bounds
import CallChain.Proofs.Chain.Copies
import CallChain.Proofs.Chain.Depth
import CallChain.Proofs.Chain.MissingReason
import CallChain.Proofs.Chain.Moved
import CallChain.Proofs.Chain.OnePass
import CallChain.Proofs.Chain.Operator
import CallChain.Proofs.Chain.Report
import CallChain.Proofs.Chain.Reported
import CallChain.Proofs.Chain.Spine
import CallChain.Proofs.Chain.TextKept
import CallChain.Proofs.Chain.Threshold
import CallChain.Proofs.Chain.TokenLookup
import CallChain.Proofs.Chain.Verdict
import CallChain.Proofs.Directive
import CallChain.Proofs.Directive.Reach
import CallChain.Proofs.Directive.Reason
import CallChain.Proofs.Directive.Writing
import CallChain.Proofs.Edit.LineFeeds
import CallChain.Proofs.Edit.Overflow
import CallChain.Proofs.Edit.Selection
import CallChain.Proofs.Edit.Splice
import CallChain.Proofs.FileTree
import CallChain.Proofs.JavaScript.Abstraction
import CallChain.Proofs.JavaScript.Address
import CallChain.Proofs.JavaScript.ChainAbstract
import CallChain.Proofs.JavaScript.ChainArena
import CallChain.Proofs.JavaScript.ChainFindings
import CallChain.Proofs.JavaScript.ChainText
import CallChain.Proofs.JavaScript.ChainTree
import CallChain.Proofs.JavaScript.Composition
import CallChain.Proofs.JavaScript.Correspondence
import CallChain.Proofs.JavaScript.DocumentOrder
import CallChain.Proofs.JavaScript.Gap
import CallChain.Proofs.JavaScript.LongChain
import CallChain.Proofs.JavaScript.Orderly
import CallChain.Proofs.JavaScript.Parentheses
import CallChain.Proofs.JavaScript.Reading.Expression
import CallChain.Proofs.JavaScript.Reading.Placement.Basic
import CallChain.Proofs.JavaScript.Reading.Placement.Expression
import CallChain.Proofs.JavaScript.Reading.Placement.Program
import CallChain.Proofs.JavaScript.Reading.Placement.Statement
import CallChain.Proofs.JavaScript.Reading.Placement.Token
import CallChain.Proofs.JavaScript.Reading.Spans
import CallChain.Proofs.JavaScript.Reading.Statement
import CallChain.Proofs.JavaScript.Shapes
import CallChain.Proofs.JavaScript.TokenOrder
import CallChain.Proofs.JavaScript.TrailingAllow
import CallChain.Proofs.JavaScript.Walk
import CallChain.Proofs.Json
import CallChain.Proofs.Linter.Alike
import CallChain.Proofs.Linter.Iterates
import CallChain.Proofs.Linter.Passes
import CallChain.Proofs.Linter.RuleOrder
import CallChain.Proofs.Linter.Severity
import CallChain.Proofs.Path
import CallChain.Proofs.Project.Atomic
import CallChain.Proofs.Project.Discovery
import CallChain.Proofs.Project.EditCount
import CallChain.Proofs.Project.Exclusion
import CallChain.Proofs.Project.Fresh
import CallChain.Proofs.Project.Union
import CallChain.Proofs.Report.Order
import CallChain.Proofs.Report.RoundTrip
import CallChain.Proofs.Syntax.Nesting
import CallChain.Proofs.Syntax.Numbering
import CallChain.Proofs.Text.Boundary
import CallChain.Proofs.Text.Breaks
import CallChain.Proofs.Text.Lines
import CallChain.Proofs.Text.Spread
import CallChain.Proofs.Text.Trim
import CallChain.Report
import CallChain.Report.Encoding
import CallChain.Rule
import CallChain.Severity
import CallChain.Source
import CallChain.Span
import CallChain.Syntax.Arena
import CallChain.Syntax.Tree
import CallChain.Text.Blank
import CallChain.Text.Bytes
import CallChain.Text.Lines
import CallChain.Text.Pad
import CallChain.Text.Search
import CallChain.Toml.Document
import CallChain.Toml.Reader
import CallChain.Toml.Scalar
import CallChain.Toml.Value
import CallChain.Violation
import CallChain.Word
