import Mathlib
import Localization.Argument.Basic
import Localization.Argument.Reader
import Localization.Assets
import Localization.Command.Arguments
import Localization.Command.Execute
import Localization.Command.Report
import Localization.Config.Basic
import Localization.Config.Json
import Localization.Config.Validation
import Localization.Error
import Localization.Extraction.Keys
import Localization.Extraction.Trees
import Localization.Files.Discovery
import Localization.Files.Path
import Localization.Files.Pattern
import Localization.Files.Store
import Localization.Inlining.Chain
import Localization.Inlining.Chunk
import Localization.Inlining.Findings
import Localization.Inlining.Render
import Localization.Inlining.Site
import Localization.Json.Raw
import Localization.Json.Reader
import Localization.Json.Value
import Localization.Json.Writer
import Localization.Key
import Localization.LanguageTag
import Localization.Main
import Localization.Marker.Alias
import Localization.Marker.Call
import Localization.Marker.Family
import Localization.Number.Binary64
import Localization.Number.Decimal
import Localization.Plural.Cardinal
import Localization.Plural.Category
import Localization.Plural.Condition
import Localization.Plural.Options
import Localization.Plural.Ordinal
import Localization.Plural.Selection
import Localization.Plural.Written
import Localization.Project.Assets
import Localization.Project.Extract
import Localization.Project.Inline
import Localization.Project.Setup
import Localization.Proofs.Argument.Enclosed
import Localization.Proofs.Argument.Meaning
import Localization.Proofs.Argument.Pieces
import Localization.Proofs.Argument.Quoted
import Localization.Proofs.Argument.ReadBack
import Localization.Proofs.Argument.Rewritten
import Localization.Proofs.Argument.Settled
import Localization.Proofs.Argument.Shape
import Localization.Proofs.Argument.Spelled
import Localization.Proofs.Argument.Stripped
import Localization.Proofs.Argument.Structured
import Localization.Proofs.Argument.Visible
import Localization.Proofs.Argument.Written
import Localization.Proofs.Assets.Layers
import Localization.Proofs.Assets.Partition
import Localization.Proofs.Assets.Revived
import Localization.Proofs.Command.Failures
import Localization.Proofs.Config.ReadBack
import Localization.Proofs.Config.Separators
import Localization.Proofs.Extraction.Collected
import Localization.Proofs.Extraction.Discovered
import Localization.Proofs.Extraction.FixedPoint
import Localization.Proofs.Extraction.Kept
import Localization.Proofs.Extraction.Order
import Localization.Proofs.Files.Along
import Localization.Proofs.Files.Changes
import Localization.Proofs.Files.Discovery
import Localization.Proofs.Files.Join
import Localization.Proofs.Files.Names
import Localization.Proofs.Files.Order
import Localization.Proofs.Files.Pattern
import Localization.Proofs.Files.Sound
import Localization.Proofs.Files.Sources
import Localization.Proofs.Inlining.Again
import Localization.Proofs.Inlining.Alternatives
import Localization.Proofs.Inlining.Batch
import Localization.Proofs.Inlining.Carried
import Localization.Proofs.Inlining.Closed
import Localization.Proofs.Inlining.Coverage
import Localization.Proofs.Inlining.Defaults
import Localization.Proofs.Inlining.Faithful
import Localization.Proofs.Inlining.Forest
import Localization.Proofs.Inlining.Guarded
import Localization.Proofs.Inlining.Levels
import Localization.Proofs.Inlining.Nested
import Localization.Proofs.Inlining.Operand
import Localization.Proofs.Inlining.Ordered
import Localization.Proofs.Inlining.Recorded
import Localization.Proofs.Inlining.Replaced
import Localization.Proofs.Inlining.RunTimeKeys
import Localization.Proofs.Inlining.Splice
import Localization.Proofs.Inlining.Tokens
import Localization.Proofs.Inlining.Values
import Localization.Proofs.Json.Distinct
import Localization.Proofs.Json.Lexing
import Localization.Proofs.Json.Numbers
import Localization.Proofs.Json.ReadBack
import Localization.Proofs.Marker.Carried
import Localization.Proofs.Marker.Place
import Localization.Proofs.Marker.Regex
import Localization.Proofs.Marker.Reported
import Localization.Proofs.Marker.Starts
import Localization.Proofs.Number.Plain
import Localization.Proofs.Number.Rounding
import Localization.Proofs.Number.Scientific
import Localization.Proofs.Number.Shortest
import Localization.Proofs.Offset.Angles
import Localization.Proofs.Offset.Callee
import Localization.Proofs.Offset.Calls
import Localization.Proofs.Offset.Checked
import Localization.Proofs.Offset.Element
import Localization.Proofs.Offset.Group
import Localization.Proofs.Offset.Part
import Localization.Proofs.Offset.Reader
import Localization.Proofs.Offset.Region
import Localization.Proofs.Offset.Walk
import Localization.Proofs.Offset.Word
import Localization.Proofs.Plural.Exact
import Localization.Proofs.Plural.Numeral
import Localization.Proofs.Plural.Outcomes
import Localization.Proofs.Plural.Rounded
import Localization.Proofs.Plural.Samples
import Localization.Proofs.Plural.Situations
import Localization.Proofs.Project.Again
import Localization.Proofs.Project.AssetFiles
import Localization.Proofs.Project.Chunks
import Localization.Proofs.Project.Extract
import Localization.Proofs.Project.Inlined
import Localization.Proofs.Project.Leaves
import Localization.Proofs.Project.Numbers
import Localization.Proofs.Project.ReadBack
import Localization.Proofs.Project.Steps
import Localization.Proofs.Project.Writes
import Localization.Proofs.Results
import Localization.Proofs.Script.Apart
import Localization.Proofs.Script.Balanced
import Localization.Proofs.Script.Behind
import Localization.Proofs.Script.Elements
import Localization.Proofs.Script.Embedded
import Localization.Proofs.Script.Following
import Localization.Proofs.Script.Group
import Localization.Proofs.Script.Lexeme
import Localization.Proofs.Script.Markup
import Localization.Proofs.Script.Occurrences
import Localization.Proofs.Script.Opening
import Localization.Proofs.Script.Parts
import Localization.Proofs.Script.Passage
import Localization.Proofs.Script.Regex
import Localization.Proofs.Script.Stretch
import Localization.Proofs.Script.Token
import Localization.Proofs.Text.Bytes
import Localization.Proofs.Text.Patch
import Localization.Proofs.Text.Replace
import Localization.Proofs.Text.Split
import Localization.Proofs.Tree.Canonical
import Localization.Proofs.Tree.Commute
import Localization.Proofs.Tree.Content
import Localization.Proofs.Tree.Distinct
import Localization.Proofs.Tree.Frame
import Localization.Proofs.Tree.Lookup
import Localization.Proofs.Tree.Objects
import Localization.Proofs.Tree.Sort
import Localization.Script.Code
import Localization.Script.Comment
import Localization.Script.Literal
import Localization.Script.Name
import Localization.Script.Part
import Localization.Script.Region
import Localization.Text.Basic
import Localization.Text.Columns
import Localization.Text.Emoji
import Localization.Text.Width
import Localization.Text.Word
import Localization.Tree
