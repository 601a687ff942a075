import TreeLint.Analysis.Analyzer
import TreeLint.Analysis.Report
import TreeLint.Assoc
import TreeLint.Command.Check
import TreeLint.Command.ConfigFile
import TreeLint.Command.Correction
import TreeLint.Command.Output
import TreeLint.Command.Request
import TreeLint.Command.RuleTable
import TreeLint.Command.Run
import TreeLint.Command.Switch
import TreeLint.Config.Basic
import TreeLint.Config.Read
import TreeLint.Diagnostic.Basic
import TreeLint.Diagnostic.Result
import TreeLint.Diagnostic.Severity
import TreeLint.Disk
import TreeLint.Edit.Basic
import TreeLint.Edit.Buffer
import TreeLint.Edit.Fix
import TreeLint.Edit.Json
import TreeLint.Glob
import TreeLint.Ignore.File
import TreeLint.Ignore.Pattern
import TreeLint.Ignore.Walk
import TreeLint.Json.Decode
import TreeLint.Json.Printer
import TreeLint.Json.Reader
import TreeLint.Json.Token
import TreeLint.Json.Value
import TreeLint.Main
import TreeLint.Matcher
import TreeLint.Path
import TreeLint.Rule.Basic
import TreeLint.Rule.DiscardedResult
import TreeLint.Rule.Preset
import TreeLint.Rule.Registry
import TreeLint.Scan
import TreeLint.Snippet.Elaborate
import TreeLint.Snippet.Error
import TreeLint.Snippet.Parser
import TreeLint.Snippet.Scope
import TreeLint.Snippet.Syntax
import TreeLint.Snippet.Token
import TreeLint.Span
import TreeLint.Suppress.Decision
import TreeLint.Suppress.Directive
import TreeLint.Text.Offset
import TreeLint.Text.Printable
import TreeLint.Text.Quoted
import TreeLint.Text.Search
import TreeLint.Toml.Binary64
import TreeLint.Toml.Datetime
import TreeLint.Toml.Quoted
import TreeLint.Toml.Reader
import TreeLint.Toml.Scalar
import TreeLint.Toml.Table
import TreeLint.Toml.Value
import TreeLint.Tree.Basic
import TreeLint.Tree.Builder
import TreeLint.Tree.Kind
import TreeLint.Typing.Table
import TreeLint.Unit.Document
import TreeLint.Unit.Load
import TreeLint.Unit.Render
import TreeLint.Visit
import TreeLint.Proofs.Edit.Order
import TreeLint.Proofs.Edit.Splice
import TreeLint.Proofs.Edit.Merge
import TreeLint.Proofs.Tree.History
import TreeLint.Proofs.Tree.Reach
import TreeLint.Proofs.Tree.Finish
import TreeLint.Proofs.Tree.Sound
import TreeLint.Proofs.Tree.Below
import TreeLint.Proofs.Scan.Walk
import TreeLint.Proofs.Scan.Visits
import TreeLint.Proofs.Rule.Registry
import TreeLint.Proofs.Scan.Isolation
import TreeLint.Proofs.Typing.Above
import TreeLint.Proofs.Rule.Chain
import TreeLint.Proofs.Rule.Verdict
import TreeLint.Proofs.Rule.Deletion
import TreeLint.Proofs.Edit.Motion
import TreeLint.Proofs.Rule.Repair
import TreeLint.Proofs.Tree.Nesting
import TreeLint.Proofs.Scan.Offsets
import TreeLint.Proofs.Typing.Names
import TreeLint.Proofs.Unit.Placing
import TreeLint.Proofs.Json.Tokens
import TreeLint.Proofs.Json.RoundTrip
import TreeLint.Proofs.Unit.Rendering
import TreeLint.Proofs.Unit.Loading
import TreeLint.Proofs.Tree.Renumbering
import TreeLint.Proofs.Unit.Transcript
import TreeLint.Proofs.Snippet.Known
import TreeLint.Proofs.Unit.RoundTrip
import TreeLint.Proofs.Typing.Renumbering
import TreeLint.Proofs.Rule.Renumbering
import TreeLint.Proofs.Analysis.Renumbering
import TreeLint.Proofs.Analysis.Treatment
import TreeLint.Proofs.Analysis.Accounting
import TreeLint.Proofs.Analysis.Documents
import TreeLint.Proofs.Command.Fixing
import TreeLint.Proofs.Json.Members
import TreeLint.Proofs.Diagnostic.RoundTrip
import TreeLint.Proofs.Snippet.Building
import TreeLint.Proofs.Snippet.Faults
import TreeLint.Proofs.Snippet.Derivation
import TreeLint.Proofs.Rule.Forgetting
import TreeLint.Proofs.Command.Merging
import TreeLint.Proofs.Analysis.Marking
import TreeLint.Proofs.Command.Settling
import TreeLint.Proofs.Suppress.Printed
import TreeLint.Proofs.Edit.Sealing
import TreeLint.Proofs.Edit.Origin
import TreeLint.Proofs.Typing.Calls
import TreeLint.Proofs.Scan.Lines
import TreeLint.Proofs.Typing.Records
import TreeLint.Proofs.Typing.Nearest
import TreeLint.Proofs.Snippet.Methods
import TreeLint.Proofs.Snippet.Bytes
import TreeLint.Proofs.Snippet.Coverage
