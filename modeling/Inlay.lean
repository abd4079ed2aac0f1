import Inlay.Text.Span
import Inlay.Text.Blank
import Inlay.Text.Name
import Inlay.Text.Distance
import Inlay.Text.RowBuffers
import Inlay.Number.Binary64
import Inlay.Number.Decimal
import Inlay.Number.Shortest
import Inlay.Json.Basic
import Inlay.Json.Decode
import Inlay.Json.Writer
import Inlay.Types.Assignable
import Inlay.Types.Render
import Inlay.Types.Union
import Inlay.Host.Expression
import Inlay.Host.Code
import Inlay.Document.Basic
import Inlay.Document.Slice
import Inlay.Markup.Element
import Inlay.Markup.Lookup
import Inlay.Markup.Arena
import Inlay.Host.Literal
import Inlay.Catalog.Collection
import Inlay.Catalog.NameMap
import Inlay.Catalog.Store
import Inlay.Catalog.Change
import Inlay.Catalog.Knowledge
import Inlay.Catalog.Standard.Attributes
import Inlay.Catalog.Standard.Elements
import Inlay.Catalog.Component
import Inlay.Catalog.HtmlData
import Inlay.Binding.Directive
import Inlay.Binding.Types
import Inlay.Lint.Diagnostic
import Inlay.Lint.Rule
import Inlay.Lint.BindingRules
import Inlay.Lint.NameRules
import Inlay.Lint.TreeRules
import Inlay.Stylesheet.Position
import Inlay.Lint.Engine
import Inlay.Lint.Context
import Inlay.Workspace.Files
import Inlay.Workspace.Config
import Inlay.Workspace.Session
import Inlay.Workspace.Lookup
import Inlay.Standalone.Parsers
import Inlay.Types.Coding
import Inlay.Lint.Coding
import Inlay.Proofs.Catalog.NameMap
import Inlay.Proofs.Catalog.Replacing
import Inlay.Proofs.Catalog.Store
import Inlay.Proofs.Catalog.Declarations
import Inlay.Proofs.Catalog.Run
import Inlay.Proofs.Catalog.Coherence
import Inlay.Proofs.Catalog.Untouched
import Inlay.Proofs.Catalog.Inherited
import Inlay.Proofs.Catalog.Bubbling
import Inlay.Proofs.Workspace.Requests
import Inlay.Proofs.Catalog.Consulting
import Inlay.Proofs.Workspace.Discovered
import Inlay.Proofs.Text.Bytes
import Inlay.Proofs.Text.Spans
import Inlay.Proofs.Text.Cuts
import Inlay.Proofs.Text.EditScripts
import Inlay.Proofs.Text.RowBuffers
import Inlay.Proofs.Document.Pieces
import Inlay.Proofs.Document.Stretch
import Inlay.Proofs.Document.Slices
import Inlay.Proofs.Host.Extraction
import Inlay.Proofs.Host.Nesting
import Inlay.Proofs.Standalone.HostTemplates
import Inlay.Proofs.Markup.TokenOrder
import Inlay.Proofs.Markup.Numbering
import Inlay.Proofs.Markup.Elements
import Inlay.Proofs.Markup.Nesting
import Inlay.Proofs.Markup.Layout
import Inlay.Proofs.Markup.Links
import Inlay.Proofs.Markup.OpenElements
import Inlay.Proofs.Markup.Arena
import Inlay.Proofs.Markup.ArenaLookups
import Inlay.Proofs.Markup.EndTags
import Inlay.Proofs.Markup.RawText
import Inlay.Proofs.Markup.RawElements
import Inlay.Proofs.Markup.AttributeTokens
import Inlay.Proofs.Markup.AttributeRanges
import Inlay.Proofs.Markup.PieceValues
import Inlay.Proofs.Markup.StretchedTokens
import Inlay.Proofs.Markup.StretchedTree
import Inlay.Proofs.Markup.ValueHoles
import Inlay.Proofs.Markup.Lookups
import Inlay.Proofs.Markup.JoinedTexts
import Inlay.Proofs.Lint.Agreement
import Inlay.Proofs.Lint.Independence
import Inlay.Proofs.Lint.Imports
import Inlay.Proofs.Lint.Placement
import Inlay.Proofs.Number.WholeText
import Inlay.Proofs.Lint.Values
import Inlay.Proofs.Lint.StaticText
import Inlay.Proofs.Lint.PlainValues
import Inlay.Proofs.Lint.Listeners
import Inlay.Proofs.Lint.UnionValues
import Inlay.Proofs.Lint.Directives
import Inlay.Proofs.Lint.UnknownNames
import Inlay.Proofs.Lint.SlotNames
import Inlay.Proofs.Lint.AllowLists
import Inlay.Proofs.Stylesheet.Columns
import Inlay.Proofs.Workspace.Informed
import Inlay.Proofs.Workspace.Incremental
import Inlay.Proofs.Workspace.Rediscovery
import Inlay.Proofs.Workspace.Configured
import Inlay.Proofs.Workspace.Cursor
import Inlay.Proofs.Workspace.Imports
import Inlay.Proofs.Types.Sameness
import Inlay.Proofs.Types.Union
import Inlay.Proofs.Types.Assignability
import Inlay.Proofs.Types.Depth
import Inlay.Proofs.Types.Related
import Inlay.Proofs.Types.MissingTypes
import Inlay.Proofs.Types.Interchange
import Inlay.Proofs.Types.NormalForm
import Inlay.Proofs.Types.UnionMeaning
import Inlay.Proofs.Types.Primitive
import Inlay.Proofs.Types.MergeOrder
import Inlay.Proofs.Catalog.Merged
import Inlay.Proofs.Catalog.Views
import Inlay.Proofs.Catalog.Absorption
import Inlay.Proofs.Catalog.Operations
import Inlay.Proofs.Catalog.Positions
import Inlay.Proofs.Text.Suggestions
import Inlay.Proofs.Markup.CheckedReading
import Inlay.Proofs.Lint.Context
