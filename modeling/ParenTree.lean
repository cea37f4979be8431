import ParenTree.Command.Arguments
import ParenTree.Command.Run
import ParenTree.Config.Settings
import ParenTree.Dispatch.Receiver
import ParenTree.Dispatch.Session
import ParenTree.Dispatch.Visitor
import ParenTree.Dumper.Agenda
import ParenTree.Dumper.Basic
import ParenTree.Dumper.Model
import ParenTree.Dumper.Script
import ParenTree.Dumper.Session
import ParenTree.Dumper.Template
import ParenTree.Files.Entry
import ParenTree.Files.Path
import ParenTree.Files.Workspace
import ParenTree.Layout.Join
import ParenTree.Layout.Normal
import ParenTree.Layout.Words
import ParenTree.Log.Logger
import ParenTree.Main
import ParenTree.Number.Binary64
import ParenTree.Proofs.Dispatch.Persistence
import ParenTree.Proofs.Dispatch.Transparency
import ParenTree.Proofs.Dispatch.Visit
import ParenTree.Proofs.Dumper.Course
import ParenTree.Proofs.Dumper.Expansion
import ParenTree.Proofs.Dumper.Independence
import ParenTree.Proofs.Dumper.Level
import ParenTree.Proofs.Dumper.Nesting
import ParenTree.Proofs.Dumper.Placeholder
import ParenTree.Proofs.Dumper.Recipe
import ParenTree.Proofs.Dumper.Recovery
import ParenTree.Proofs.Dumper.Template
import ParenTree.Proofs.Dumper.Uniform
import ParenTree.Proofs.Layout.Normal
import ParenTree.Proofs.Layout.Reading
import ParenTree.Proofs.Layout.Rendering
import ParenTree.Proofs.Layout.Rise
import ParenTree.Proofs.Layout.RoundTrip
import ParenTree.Proofs.Layout.Words
import ParenTree.Proofs.Model.Memory
import ParenTree.Proofs.Model.Pipeline
import ParenTree.Proofs.Model.Reading
import ParenTree.Proofs.Model.Text
import ParenTree.Proofs.Model.Value
import ParenTree.Proofs.Source.Coverage
import ParenTree.Proofs.Source.Location
import ParenTree.Proofs.Source.Progress
import ParenTree.Proofs.Source.Scanning
import ParenTree.Proofs.Source.Spelling
import ParenTree.Proofs.Syntax.Completeness
import ParenTree.Proofs.Syntax.Concatenation
import ParenTree.Proofs.Syntax.EndOfInput
import ParenTree.Proofs.Syntax.Grammar
import ParenTree.Proofs.Syntax.Placement
import ParenTree.Proofs.Syntax.Printing
import ParenTree.Proofs.Syntax.Procedure
import ParenTree.Proofs.Syntax.Recognition
import ParenTree.Proofs.Syntax.Respacing
import ParenTree.Proofs.Syntax.Routine
import ParenTree.Proofs.Syntax.Soundness
import ParenTree.Proofs.Syntax.Spans
import ParenTree.Proofs.Syntax.Viability
import ParenTree.Proofs.Syntax.WellFormed
import ParenTree.Source.Diagnostic
import ParenTree.Source.Lexeme
import ParenTree.Source.Lexer
import ParenTree.Source.Span
import ParenTree.Source.Token
import ParenTree.Syntax.Node
import ParenTree.Syntax.Object
import ParenTree.Syntax.Parser
import ParenTree.Text.Blank
import ParenTree.Text.Decimal
import ParenTree.Text.Printable
import ParenTree.Text.Quoted
import ParenTree.Text.Uppercase
import ParenTree.Text.Utf8
import ParenTree.Toml.Document
import ParenTree.Toml.Scalar
import ParenTree.Toml.Value
import ParenTree.Tree.Datum
import ParenTree.Tree.Fault
import ParenTree.Tree.NodeType
import ParenTree.Tree.TypeTable
import ParenTree.Proofs.Syntax.Ranges
import ParenTree.Proofs.Syntax.Excerpt
import ParenTree.Proofs.Config.Ascent
import ParenTree.Proofs.Config.Content
import ParenTree.Proofs.Config.Search
import ParenTree.Proofs.Text.Utf8
import ParenTree.Proofs.Command.Outcome
import ParenTree.Proofs.Source.LongestMatch
import ParenTree.Proofs.Syntax.Precedence
import ParenTree.Proofs.Syntax.Confinement
import ParenTree.Proofs.Layout.Flattening
import ParenTree.Proofs.Layout.Shifting
import ParenTree.Proofs.Layout.Recasting
import ParenTree.Proofs.Model.Quoting
