import CssRune.Span
import CssRune.Text.Bytes
import CssRune.Text.Blank
import CssRune.Text.Words
import CssRune.Text.Radix
import CssRune.Text.Units
import CssRune.Hash.Djb2
import CssRune.Hash.Xxh3
import CssRune.Hash
import CssRune.Edit.Buffer
import CssRune.Edit.Segments
import CssRune.Report.Excerpt
import CssRune.Rune.ClassSet
import CssRune.Rune.Fault
import CssRune.Rune.Placement
import CssRune.Rune.Variants
import CssRune.Report.MixedUse
import CssRune.Text.Cursor
import CssRune.ParseError
import CssRune.Text.Quoted
import CssRune.Style.Selector
import CssRune.Style.Selector.Reader
import CssRune.Style.Sheet
import CssRune.Style.Sheet.Reader
import CssRune.Component
import CssRune.Component.Reader
import CssRune.Markup.Braces
import CssRune.Markup.Reader
import CssRune.Markup.Tree
import CssRune.Script.Grammar
import CssRune.Script.Grammar.Binding
import CssRune.Script.Grammar.Expressions
import CssRune.Script.Grammar.Functions
import CssRune.Script.Grammar.Statements
import CssRune.Script.Grammar.Types
import CssRune.Script.Name
import CssRune.Script.Reader
import CssRune.Script.Rule
import CssRune.Script.StringLiteral
import CssRune.Script.Target
import CssRune.Script.Token
import CssRune.Script.Tree
import CssRune.Text.Search
import CssRune.Markup.Parts
import CssRune.Options
import CssRune.Preprocess
import CssRune.Rune.Call
import CssRune.Rune.ClassNames
import CssRune.Rune.Literals
import CssRune.Rune.ApplyError
import CssRune.Rune.Selectors
import CssRune.Rune.Usage
import CssRune.Lists
import CssRune.Style.Selector.Parts
import CssRune.Walk
import CssRune.Build
import CssRune.Build.Arguments
import CssRune.Build.Selection
import CssRune.Config
import CssRune.Host
import CssRune.Host.Standard
import CssRune.Files.Glob
import CssRune.Files.Path
import CssRune.Files.Tree
import CssRune.Json
import CssRune.Json.Reader
import CssRune.Main
import CssRune.Text.Hex
import CssRune.Proofs.Placement
import CssRune.Proofs.Reading
import CssRune.Proofs.Spans
import CssRune.Proofs.Style.Selectors
import CssRune.Proofs.Style.Parts
import CssRune.Proofs.Style.Sheets
import CssRune.Proofs.Markup.Braces
import CssRune.Proofs.Markup.Nodes
import CssRune.Proofs.Script.Calls
import CssRune.Proofs.Markup.Calls
import CssRune.Proofs.Components
import CssRune.Proofs.Edit.Buffers
import CssRune.Proofs.Rune.Runs
import CssRune.Proofs.Rune.Edits
import CssRune.Proofs.Preprocessing
import CssRune.Proofs.Edit.Segments
import CssRune.Proofs.Rune.Pieces
import CssRune.Proofs.Rune.References
import CssRune.Proofs.Output
import CssRune.Proofs.Edit.Histories
import CssRune.Proofs.Edit.Rendering
import CssRune.Proofs.Edit.Orders
import CssRune.Proofs.Edit.Maps
import CssRune.Proofs.Style.Shapes
import CssRune.Proofs.Rune.Escapes
import CssRune.Proofs.Rune.Readings
import CssRune.Proofs.Rune.Expansion
import CssRune.Proofs.Rune.Variants
import CssRune.Proofs.Rune.Commutation
import CssRune.Proofs.Tiling
import CssRune.Proofs.Style.Nesting
import CssRune.Proofs.Style.Refusals
import CssRune.Proofs.Markup.Refusals
import CssRune.Proofs.Script.Literals
import CssRune.Proofs.Rune.Replacement
import CssRune.Proofs.Rune.Resolution
import CssRune.Proofs.Rune.Passes
import CssRune.Proofs.Warnings
import CssRune.Proofs.Rune.Sentinel
import CssRune.Proofs.Build.Outputs
import CssRune.Proofs.Build.Endings
import CssRune.Proofs.Rune.Choices
import CssRune.Proofs.Rune.Positions
import CssRune.Proofs.Markup.Balance
import CssRune.Proofs.Markup.Closing
import CssRune.Proofs.Markup.Items
import CssRune.Proofs.Markup.TopLevel
import CssRune.Proofs.Rune.Alternatives
import CssRune.Proofs.Rune.Natives
import CssRune.Proofs.Text.Words
import CssRune.Proofs.Style.Delimiters
import CssRune.Proofs.Style.Blocks
import CssRune.Proofs.Style.Shifts
import CssRune.Proofs.Style.Translation
import CssRune.Proofs.Markup.StyleElements
import CssRune.Proofs.Style.Rounds
import CssRune.Proofs.Style.SplitOpeners
import CssRune.Proofs.Script.Decoding
import CssRune.Proofs.Rune.Names
import CssRune.Proofs.Rune.Denotation
import CssRune.Proofs.Hash.Separation
import CssRune.Proofs.Markup.Languages
import CssRune.Proofs.Report.Rows
import CssRune.Proofs.Report.Underlines
import CssRune.Proofs.Report.Layouts
import CssRune.Proofs.Report.MixedUses
import CssRune.Proofs.Markup.Templates
import CssRune.Proofs.Walk.Logs
import CssRune.Proofs.Walk.Tours
