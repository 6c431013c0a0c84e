import DiagramText.Architecture
import DiagramText.Captions
import DiagramText.ClassDiagram.Diagram
import DiagramText.ClassDiagram.Document
import DiagramText.ClassDiagram.Member
import DiagramText.Detector
import DiagramText.Diagnostic
import DiagramText.Dialect
import DiagramText.Direction
import DiagramText.Distinct
import DiagramText.Er.Document
import DiagramText.Er.Schema
import DiagramText.Extremum
import DiagramText.Flowchart.Arrow
import DiagramText.Flowchart.Chart
import DiagramText.Flowchart.Document
import DiagramText.Flowchart.Shape
import DiagramText.Gantt.Document
import DiagramText.Gantt.Duration
import DiagramText.Gantt.Plan
import DiagramText.Git.Document
import DiagramText.Git.History
import DiagramText.Graph
import DiagramText.Info
import DiagramText.Interaction
import DiagramText.Issue
import DiagramText.Journey
import DiagramText.Kanban
import DiagramText.Keyed
import DiagramText.Kind
import DiagramText.Logging
import DiagramText.Mindmap
import DiagramText.Packet
import DiagramText.Parse
import DiagramText.Peg.CharClass
import DiagramText.Peg.Frontier
import DiagramText.Peg.Grammar
import DiagramText.Peg.Lexeme
import DiagramText.Peg.Match
import DiagramText.Peg.Rule
import DiagramText.Pie
import DiagramText.Proofs.Architecture.Checks
import DiagramText.Proofs.Architecture.Enclosure
import DiagramText.Proofs.ClassDiagram.Associations
import DiagramText.Proofs.ClassDiagram.Members
import DiagramText.Proofs.ClassDiagram.Mirrors
import DiagramText.Proofs.ClassDiagram.Namespaces
import DiagramText.Proofs.ClassDiagram.Ties
import DiagramText.Proofs.Comment
import DiagramText.Proofs.Demand
import DiagramText.Proofs.Detection
import DiagramText.Proofs.Diagnostic
import DiagramText.Proofs.Endpoints
import DiagramText.Proofs.Flowchart.Arrows
import DiagramText.Proofs.Flowchart.Containment
import DiagramText.Proofs.Flowchart.Expansion
import DiagramText.Proofs.Flowchart.Links
import DiagramText.Proofs.Flowchart.Names
import DiagramText.Proofs.Flowchart.NodeStyles
import DiagramText.Proofs.Flowchart.Subgraphs
import DiagramText.Proofs.Gantt.Dependencies
import DiagramText.Proofs.Gantt.Durations
import DiagramText.Proofs.Gantt.Items
import DiagramText.Proofs.Gantt.Statements
import DiagramText.Proofs.Gantt.TaskLines
import DiagramText.Proofs.GeneratedIds
import DiagramText.Proofs.Git.Ancestors
import DiagramText.Proofs.Git.Branches
import DiagramText.Proofs.Git.History
import DiagramText.Proofs.Git.Log
import DiagramText.Proofs.Git.Merges
import DiagramText.Proofs.Git.Names
import DiagramText.Proofs.Git.Picks
import DiagramText.Proofs.Indexed
import DiagramText.Proofs.IndexedCalls
import DiagramText.Proofs.Kanban.Columns
import DiagramText.Proofs.Layout
import DiagramText.Proofs.LeadingLines
import DiagramText.Proofs.LineEnds
import DiagramText.Proofs.Linked
import DiagramText.Proofs.LoneStatements
import DiagramText.Proofs.Mindmap.Drafts
import DiagramText.Proofs.Mindmap.Indentation
import DiagramText.Proofs.Mindmap.Lines
import DiagramText.Proofs.Mindmap.Links
import DiagramText.Proofs.Naming
import DiagramText.Proofs.Nesting
import DiagramText.Proofs.Packet.Blocks
import DiagramText.Proofs.Packet.Calls
import DiagramText.Proofs.Packet.Rows
import DiagramText.Proofs.Parse
import DiagramText.Proofs.Peg.BodyLines
import DiagramText.Proofs.Peg.Builders
import DiagramText.Proofs.Peg.Captures
import DiagramText.Proofs.Peg.Congruence
import DiagramText.Proofs.Peg.Copies
import DiagramText.Proofs.Peg.Derivation
import DiagramText.Proofs.Peg.Grammar
import DiagramText.Proofs.Peg.Keywords
import DiagramText.Proofs.Peg.LastLine
import DiagramText.Proofs.Peg.Lexeme
import DiagramText.Proofs.Peg.LineEndReports
import DiagramText.Proofs.Peg.LineEnds
import DiagramText.Proofs.Peg.LineWise
import DiagramText.Proofs.Peg.Locality
import DiagramText.Proofs.Peg.Loud
import DiagramText.Proofs.Peg.Match
import DiagramText.Proofs.Peg.Outcome
import DiagramText.Proofs.Peg.Outline
import DiagramText.Proofs.Peg.Progress
import DiagramText.Proofs.Peg.Quoted
import DiagramText.Proofs.Peg.Replace
import DiagramText.Proofs.Peg.Resolved
import DiagramText.Proofs.Peg.Spans
import DiagramText.Proofs.Peg.StatementLines
import DiagramText.Proofs.Peg.Stretch
import DiagramText.Proofs.Peg.Stuck
import DiagramText.Proofs.Peg.Takes
import DiagramText.Proofs.Peg.Trace
import DiagramText.Proofs.Peg.Transport
import DiagramText.Proofs.Peg.Wrappers
import DiagramText.Proofs.Pie
import DiagramText.Proofs.Precedence
import DiagramText.Proofs.PseudoStates
import DiagramText.Proofs.QuotedLabels
import DiagramText.Proofs.QuotedLabels.Brackets
import DiagramText.Proofs.QuotedLabels.Charts
import DiagramText.Proofs.QuotedLabels.Graphs
import DiagramText.Proofs.Radar
import DiagramText.Proofs.Reading
import DiagramText.Proofs.ReadingChecks
import DiagramText.Proofs.Recast
import DiagramText.Proofs.Recast.Charts
import DiagramText.Proofs.Recast.Graphs
import DiagramText.Proofs.Recast.Nested
import DiagramText.Proofs.Registry
import DiagramText.Proofs.Requirement.Relations
import DiagramText.Proofs.Requirement.Spellings
import DiagramText.Proofs.Requirement.Statements
import DiagramText.Proofs.SankeyTable
import DiagramText.Proofs.Sequence.Activations
import DiagramText.Proofs.Sequence.Events
import DiagramText.Proofs.Sequence.Messages
import DiagramText.Proofs.ShapeFaults
import DiagramText.Proofs.Shapes
import DiagramText.Proofs.StateDiagram.Nesting
import DiagramText.Proofs.StateDiagram.Regions
import DiagramText.Proofs.Style.Overlay
import DiagramText.Proofs.Style.Text
import DiagramText.Proofs.StyleClasses
import DiagramText.Proofs.Supplied.Charts
import DiagramText.Proofs.Supplied.Graphs
import DiagramText.Proofs.Supplied.Nested
import DiagramText.Proofs.Text.Blank
import DiagramText.Proofs.Text.ContentLines
import DiagramText.Proofs.Text.Numeral
import DiagramText.Proofs.Text.Pairs
import DiagramText.Proofs.Text.Quoting
import DiagramText.Proofs.Text.Returns
import DiagramText.Proofs.Timeline
import DiagramText.Proofs.UniqueIds
import DiagramText.Quadrant
import DiagramText.Radar
import DiagramText.Reading
import DiagramText.Registry
import DiagramText.Requirement
import DiagramText.Sankey
import DiagramText.Sequence.Diagram
import DiagramText.Sequence.Document
import DiagramText.StateDiagram.Diagram
import DiagramText.StateDiagram.Document
import DiagramText.Style
import DiagramText.Table
import DiagramText.Text.Alphanumeric
import DiagramText.Text.Blank
import DiagramText.Text.CharWidth
import DiagramText.Text.Csv
import DiagramText.Text.Decimal
import DiagramText.Text.Emoji
import DiagramText.Text.Ligature
import DiagramText.Text.Numeral
import DiagramText.Text.Offset
import DiagramText.Text.Quoted
import DiagramText.Text.Ranges
import DiagramText.Text.Separated
import DiagramText.Text.Width
import DiagramText.Timeline
import DiagramText.Tree
import DiagramText.Value
import DiagramText.XyChart
