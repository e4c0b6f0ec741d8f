import QueryLint.Codec.Edit
import QueryLint.Codec.Lint
import QueryLint.Codec.Record
import QueryLint.Codec.RuleEntry
import QueryLint.Codec.Settings
import QueryLint.Config.Lint
import QueryLint.Config.RuleEntry
import QueryLint.Data.Binary64
import QueryLint.Data.Json.Number
import QueryLint.Data.Json.Read
import QueryLint.Data.Json.Write
import QueryLint.Data.Node
import QueryLint.Data.Table
import QueryLint.Data.Value
import QueryLint.Data.Yaml.Plain
import QueryLint.Data.Yaml.Read
import QueryLint.Data.Yaml.Scalar
import QueryLint.Data.Yaml.Text
import QueryLint.Data.Yaml.Token
import QueryLint.Data.Yaml.Tree
import QueryLint.Diagnostic
import QueryLint.Document
import QueryLint.Edit
import QueryLint.Edit.Apply
import QueryLint.FileTree
import QueryLint.Linter
import QueryLint.Path
import QueryLint.Position
import QueryLint.Range
import QueryLint.Rule.Basic
import QueryLint.Rule.Finding
import QueryLint.Rule.Kind
import QueryLint.Rule.Layout
import QueryLint.Rule.Null
import QueryLint.Rule.Select
import QueryLint.Settings.Basic
import QueryLint.Settings.Load
import QueryLint.Settings.Text
import QueryLint.Severity
import QueryLint.Statement
import QueryLint.Text.Blank
import QueryLint.Text.CharRange
import QueryLint.Text.Letter
import QueryLint.Text.LineIndex
import QueryLint.Text.Measure
import QueryLint.Token.Basic
import QueryLint.Token.Keyword
import QueryLint.Token.Lexer
import QueryLint.Proofs.Token.Reach
import QueryLint.Proofs.Token.Truncate
import QueryLint.Proofs.Token.Settle
import QueryLint.Proofs.Text.Bytes
import QueryLint.Proofs.Text.Walk
import QueryLint.Proofs.Token.Tiling
import QueryLint.Proofs.Token.LineBreaks
import QueryLint.Proofs.Statement.Segments
import QueryLint.Proofs.Statement.Partition
import QueryLint.Proofs.Statement.Reparse
import QueryLint.Proofs.Rule.Order
import QueryLint.Proofs.Text.Offset
import QueryLint.Proofs.Token.Boundary
import QueryLint.Proofs.Rule.Finding
import QueryLint.Proofs.Edit.Replace
import QueryLint.Proofs.Edit.Fixes
import QueryLint.Proofs.Rule.Relabel
import QueryLint.Proofs.Token.LineEnding
import QueryLint.Proofs.Rule.LineEnding
import QueryLint.Proofs.Token.LetterCase
import QueryLint.Proofs.Rule.LetterCase
import QueryLint.Proofs.Data.Table
import QueryLint.Proofs.Data.Canonical
import QueryLint.Proofs.Codec.RuleEntry
import QueryLint.Proofs.Config.WithRule
import QueryLint.Proofs.Config.Resolve
import QueryLint.Proofs.Config.Validate
import QueryLint.Proofs.Settings.Load
import QueryLint.Proofs.Rule.Ahead
import QueryLint.Proofs.Rule.Piecewise
import QueryLint.Proofs.Rule.Significant
import QueryLint.Proofs.Rule.Locality
import QueryLint.Proofs.Token.LineComment
import QueryLint.Proofs.Token.Restart
import QueryLint.Proofs.Rule.Comment
import QueryLint.Proofs.Text.Inverse
import QueryLint.Proofs.Token.Kinds
import QueryLint.Proofs.Token.LineEnd
import QueryLint.Proofs.Token.Trivia
import QueryLint.Proofs.Edit.OneKind
import QueryLint.Proofs.Rule.Whitespace
import QueryLint.Proofs.Rule.FinalNewline
import QueryLint.Proofs.Token.Names
import QueryLint.Proofs.Token.Touching
import QueryLint.Proofs.Token.Words
import QueryLint.Proofs.Rule.NullFix
import QueryLint.Proofs.Rule.CommaFix
import QueryLint.Proofs.Rule.DistinctFix
import QueryLint.Proofs.Rule.Assignment
import QueryLint.Proofs.Edit.Overwrite
import QueryLint.Proofs.Config.Merge
import QueryLint.Proofs.Codec.Fields
import QueryLint.Proofs.Config.Overlay
import QueryLint.Proofs.Rule.Instances
import QueryLint.Proofs.Token.Literal
import QueryLint.Proofs.Token.LastCharacter
import QueryLint.Proofs.Rule.TrailingBlanks
import QueryLint.Proofs.Rule.CommaLines
import QueryLint.Proofs.Token.Shape
import QueryLint.Proofs.Statement.Blank
