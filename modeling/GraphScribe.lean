import GraphScribe.Condition.Category
import GraphScribe.Condition.Reading
import GraphScribe.Config.Coercion
import GraphScribe.Config.KeyPath
import GraphScribe.Config.Layers
import GraphScribe.Config.Load
import GraphScribe.Console.Report
import GraphScribe.Console.Request
import GraphScribe.Console.Run
import GraphScribe.Diagram.Basic
import GraphScribe.Diagram.OfGraph
import GraphScribe.Editor.Buffer
import GraphScribe.Editor.EditorJson
import GraphScribe.Editor.Highlight
import GraphScribe.Editor.Language
import GraphScribe.Editor.Session
import GraphScribe.Geometry.Outline
import GraphScribe.Geometry.Plane
import GraphScribe.Graph.Basic
import GraphScribe.Graph.EdgeLine
import GraphScribe.Graph.Edit
import GraphScribe.Graph.GraphJson
import GraphScribe.Graph.Label
import GraphScribe.Json.Basic
import GraphScribe.Json.Decode
import GraphScribe.Json.Number
import GraphScribe.Json.Reader
import GraphScribe.Lexis.Gap
import GraphScribe.Lexis.Lexicon
import GraphScribe.Lexis.Pattern
import GraphScribe.Lexis.Piece
import GraphScribe.Lexis.Scanner
import GraphScribe.Main
import GraphScribe.Number.Binary
import GraphScribe.Number.Decimal
import GraphScribe.Number.Numeral
import GraphScribe.Placement.Algorithm
import GraphScribe.Placement.Circular
import GraphScribe.Placement.Engine
import GraphScribe.Placement.Force
import GraphScribe.Placement.Forest
import GraphScribe.Placement.Frame
import GraphScribe.Placement.Grid
import GraphScribe.Placement.Layered
import GraphScribe.Placement.Names
import GraphScribe.Placement.Orientation
import GraphScribe.Placement.Planar
import GraphScribe.Placement.Radial
import GraphScribe.Placement.Ranks
import GraphScribe.Placement.Session
import GraphScribe.Placement.Settings
import GraphScribe.Placement.SettingsJson
import GraphScribe.Placement.Strategy
import GraphScribe.Placement.Table
import GraphScribe.Placement.Tree
import GraphScribe.Program.Block
import GraphScribe.Program.Category
import GraphScribe.Program.Command
import GraphScribe.Program.Declaration
import GraphScribe.Program.Fault
import GraphScribe.Program.Reading
import GraphScribe.Proofs.Condition.Joined
import GraphScribe.Proofs.Condition.Locality
import GraphScribe.Proofs.Condition.Parentheses
import GraphScribe.Proofs.Condition.Scan
import GraphScribe.Proofs.Condition.Signs
import GraphScribe.Proofs.Condition.Spacing
import GraphScribe.Proofs.Condition.Steps
import GraphScribe.Proofs.Condition.Tail
import GraphScribe.Proofs.Diagram.Adjacency
import GraphScribe.Proofs.Diagram.Ascending
import GraphScribe.Proofs.Diagram.Bare
import GraphScribe.Proofs.Diagram.Links
import GraphScribe.Proofs.Diagram.OfGraph
import GraphScribe.Proofs.Diagram.Resolution
import GraphScribe.Proofs.Diagram.SameLinks
import GraphScribe.Proofs.Diagram.Views
import GraphScribe.Proofs.Editor.BlockStyles
import GraphScribe.Proofs.Editor.Explanations
import GraphScribe.Proofs.Editor.Keywords
import GraphScribe.Proofs.Editor.LineStyles
import GraphScribe.Proofs.Editor.Lookups
import GraphScribe.Proofs.Editor.Parsing
import GraphScribe.Proofs.Editor.Positions
import GraphScribe.Proofs.Editor.Progress
import GraphScribe.Proofs.Editor.StaleBlocks
import GraphScribe.Proofs.Editor.Transparency
import GraphScribe.Proofs.Geometry.OutlinePoints
import GraphScribe.Proofs.Geometry.Rect
import GraphScribe.Proofs.Geometry.Stretches
import GraphScribe.Proofs.Graph.Contents
import GraphScribe.Proofs.Graph.Edit
import GraphScribe.Proofs.Graph.Removal
import GraphScribe.Proofs.Graph.WellFormed
import GraphScribe.Proofs.Lexis.Comments
import GraphScribe.Proofs.Lexis.Scan
import GraphScribe.Proofs.Lexis.ScannerRuns
import GraphScribe.Proofs.Lexis.Tail
import GraphScribe.Proofs.Lexis.Words
import GraphScribe.Proofs.Placement.BreadthFirst
import GraphScribe.Proofs.Placement.ChordlessFrames
import GraphScribe.Proofs.Placement.Components
import GraphScribe.Proofs.Placement.Directions
import GraphScribe.Proofs.Placement.Framing
import GraphScribe.Proofs.Placement.Generations
import GraphScribe.Proofs.Placement.Independence
import GraphScribe.Proofs.Placement.Inputs
import GraphScribe.Proofs.Placement.LayerGaps
import GraphScribe.Proofs.Placement.Layering
import GraphScribe.Proofs.Placement.Layers
import GraphScribe.Proofs.Placement.LongestPaths
import GraphScribe.Proofs.Placement.Outcome
import GraphScribe.Proofs.Placement.Outlines
import GraphScribe.Proofs.Placement.PlanarGaps
import GraphScribe.Proofs.Placement.Range
import GraphScribe.Proofs.Placement.RedundantLinks
import GraphScribe.Proofs.Placement.Release
import GraphScribe.Proofs.Placement.Roots
import GraphScribe.Proofs.Placement.Rows
import GraphScribe.Proofs.Placement.Session
import GraphScribe.Proofs.Placement.Snapping
import GraphScribe.Proofs.Placement.SpanningForest
import GraphScribe.Proofs.Placement.Subtrees
import GraphScribe.Proofs.Placement.Tables
import GraphScribe.Proofs.Placement.TreeGaps
import GraphScribe.Proofs.Program.Append
import GraphScribe.Proofs.Program.Brackets
import GraphScribe.Proofs.Program.Completeness
import GraphScribe.Proofs.Program.Composition
import GraphScribe.Proofs.Program.Grammar
import GraphScribe.Proofs.Program.Insertion
import GraphScribe.Proofs.Program.Layout
import GraphScribe.Proofs.Program.Lexemes
import GraphScribe.Proofs.Program.Neighbours
import GraphScribe.Proofs.Program.Nesting
import GraphScribe.Proofs.Program.Printing
import GraphScribe.Proofs.Program.Recovery
import GraphScribe.Proofs.Program.Reserved
import GraphScribe.Proofs.Program.Scan
import GraphScribe.Proofs.Program.Sequel
import GraphScribe.Proofs.Program.SideBySide
import GraphScribe.Proofs.Program.Soundness
import GraphScribe.Proofs.Program.Tail
import GraphScribe.Proofs.Scalar.Binary64
import GraphScribe.Proofs.Scalar.Magnitude
import GraphScribe.Proofs.Style.ColorForms
import GraphScribe.Proofs.Text.Lines
import GraphScribe.Proofs.Text.Offsets
import GraphScribe.Proofs.Token.Lookup
import GraphScribe.Proofs.Token.Partition
import GraphScribe.Proofs.Token.Shift
import GraphScribe.Scalar.Basic
import GraphScribe.Scalar.Double
import GraphScribe.Style.Color
import GraphScribe.Style.StyleClass
import GraphScribe.Style.StyleJson
import GraphScribe.Style.StyleSheet
import GraphScribe.Text.Blank
import GraphScribe.Text.Bytes
import GraphScribe.Text.Lines
import GraphScribe.Text.Plain
import GraphScribe.Text.Quoted
import GraphScribe.Text.WordChar
import GraphScribe.Token.Basic
import GraphScribe.Token.Check
import GraphScribe.Token.Sequence
import GraphScribe.Toml.Number
import GraphScribe.Toml.Reader
import GraphScribe.Toml.Table
import GraphScribe.Toml.Words
import GraphScribe.Yaml.Reader
