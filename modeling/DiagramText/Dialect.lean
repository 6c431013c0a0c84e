import DiagramText.Architecture
import DiagramText.ClassDiagram.Document
import DiagramText.Er.Document
import DiagramText.Flowchart.Document
import DiagramText.Gantt.Document
import DiagramText.Git.Document
import DiagramText.Info
import DiagramText.Journey
import DiagramText.Kanban
import DiagramText.Mindmap
import DiagramText.Packet
import DiagramText.Pie
import DiagramText.Quadrant
import DiagramText.Radar
import DiagramText.Requirement
import DiagramText.Sankey
import DiagramText.Sequence.Document
import DiagramText.StateDiagram.Document
import DiagramText.Timeline
import DiagramText.XyChart

/-!
# Dialects

What the kinds of diagrams have in common: a grammar for their documents, a reading of the syntax tree
into a model, the complaints of that reading, and what is asked of every model.
-/

namespace DiagramText

/-- The language of one kind of diagram. -/
structure Dialect where
  /-- The models of the kind. -/
  Content : Type
  /-- The complaints about its documents. -/
  Fallacy : Type
  [written : Written Content]
  [complaint : Complaint Fallacy]
  grammar : Peg.Grammar
  read : Tree → Reading Fallacy Content
  entityCount : Content → Nat
  issues : Content → List Issue
  /-- The model of a document that says nothing. -/
  blank : Content
  /-- What is left of a model when all that it says is dropped. -/
  clear : Content → Content := fun _ => blank

namespace Dialect

instance (d : Dialect) : Written d.Content := d.written

instance (d : Dialect) : Complaint d.Fallacy := d.complaint

end Dialect

/-- The dialect of each kind. -/
def Kind.dialect : Kind → Dialect
  | flowchart =>
    { Content := Flowchart.Chart, Fallacy := Flowchart.Fallacy
      grammar := Flowchart.grammar, read := Flowchart.read
      entityCount := Flowchart.Chart.entityCount, issues := Flowchart.Chart.issues
      blank := {}, clear := Flowchart.Chart.clear }
  | sequence =>
    { Content := Sequence.Diagram, Fallacy := Sequence.Fallacy
      grammar := Sequence.grammar, read := Sequence.read
      entityCount := Sequence.Diagram.entityCount, issues := Sequence.Diagram.issues
      blank := {} }
  | classDiagram =>
    { Content := ClassDiagram.Diagram, Fallacy := ClassDiagram.Fallacy
      grammar := ClassDiagram.grammar, read := ClassDiagram.read
      entityCount := ClassDiagram.Diagram.entityCount, issues := ClassDiagram.Diagram.issues
      blank := {} }
  | state =>
    { Content := StateDiagram.Diagram, Fallacy := StateDiagram.Fallacy
      grammar := StateDiagram.grammar, read := StateDiagram.read
      entityCount := StateDiagram.Diagram.entityCount, issues := StateDiagram.Diagram.issues
      blank := {} }
  | er =>
    { Content := Er.Schema, Fallacy := Er.Fallacy
      grammar := Er.grammar, read := Er.read
      entityCount := Er.Schema.entityCount, issues := Er.Schema.issues
      blank := {} }
  | journey =>
    { Content := Journey.Trip, Fallacy := Journey.Fallacy
      grammar := Journey.grammar, read := Journey.read
      entityCount := Journey.Trip.entityCount, issues := Journey.Trip.issues
      blank := {} }
  | gitGraph =>
    { Content := Git.History, Fallacy := Git.Fallacy
      grammar := Git.grammar, read := Git.read
      entityCount := Git.History.entityCount, issues := Git.History.issues
      blank := {}, clear := Git.History.clear }
  | sankey =>
    { Content := Sankey.Network, Fallacy := Sankey.Fallacy
      grammar := Sankey.grammar, read := Sankey.read
      entityCount := Sankey.Network.entityCount, issues := Sankey.Network.issues
      blank := {} }
  | pie =>
    { Content := Pie.Chart, Fallacy := Pie.Fallacy
      grammar := Pie.grammar, read := Pie.read
      entityCount := Pie.Chart.entityCount, issues := Pie.Chart.issues
      blank := {} }
  | gantt =>
    { Content := Gantt.Plan, Fallacy := Gantt.Fallacy
      grammar := Gantt.grammar, read := Gantt.read
      entityCount := Gantt.Plan.entityCount, issues := Gantt.Plan.issues
      blank := {} }
  | timeline =>
    { Content := Timeline.Chronicle, Fallacy := Timeline.Fallacy
      grammar := Timeline.grammar, read := Timeline.read
      entityCount := Timeline.Chronicle.entityCount, issues := Timeline.Chronicle.issues
      blank := {} }
  | mindmap =>
    { Content := Mindmap.Map, Fallacy := Mindmap.Fallacy
      grammar := Mindmap.grammar, read := Mindmap.read
      entityCount := Mindmap.Map.entityCount, issues := Mindmap.Map.issues
      blank := {} }
  | quadrantChart =>
    { Content := Quadrant.Chart, Fallacy := Quadrant.Fallacy
      grammar := Quadrant.grammar, read := Quadrant.read
      entityCount := Quadrant.Chart.entityCount, issues := Quadrant.Chart.issues
      blank := {} }
  | requirement =>
    { Content := Requirement.Diagram, Fallacy := Requirement.Fallacy
      grammar := Requirement.grammar, read := Requirement.read
      entityCount := Requirement.Diagram.entityCount, issues := Requirement.Diagram.issues
      blank := {} }
  | packet =>
    { Content := Packet.Layout, Fallacy := Packet.Fallacy
      grammar := Packet.grammar, read := Packet.read
      entityCount := Packet.Layout.entityCount, issues := Packet.Layout.issues
      blank := {} }
  | kanban =>
    { Content := Kanban.Board, Fallacy := Kanban.Fallacy
      grammar := Kanban.grammar, read := Kanban.read
      entityCount := Kanban.Board.entityCount, issues := Kanban.Board.issues
      blank := {} }
  | xyChart =>
    { Content := XyChart.Chart, Fallacy := XyChart.Fallacy
      grammar := XyChart.grammar, read := XyChart.read
      entityCount := XyChart.Chart.entityCount, issues := XyChart.Chart.issues
      blank := {} }
  | architecture =>
    { Content := Architecture.Diagram, Fallacy := Architecture.Fallacy
      grammar := Architecture.grammar, read := Architecture.read
      entityCount := Architecture.Diagram.entityCount, issues := Architecture.Diagram.issues
      blank := {} }
  | radar =>
    { Content := Radar.Chart, Fallacy := Radar.Fallacy
      grammar := Radar.grammar, read := Radar.read
      entityCount := Radar.Chart.entityCount, issues := Radar.Chart.issues
      blank := {} }
  | info =>
    { Content := Info.Notice, Fallacy := Empty
      grammar := Info.grammar, read := Info.read
      entityCount := Info.Notice.entityCount, issues := Info.Notice.issues
      blank := {} }

/-- A model of any kind. -/
structure Model where
  kind : Kind
  content : kind.dialect.Content

namespace Model

/-- The model of a kind that says nothing. -/
def blank (kind : Kind) : Model := ⟨kind, kind.dialect.blank⟩

/-- The model without all that it says. -/
def clear (m : Model) : Model := ⟨m.kind, m.kind.dialect.clear m.content⟩

/-- The number of entities that the model is about. -/
def entityCount (m : Model) : Nat := m.kind.dialect.entityCount m.content

/-- What is wrong with the model. -/
def issues (m : Model) : List Issue := m.kind.dialect.issues m.content

/-- Whether nothing is wrong with the model. -/
def isValid (m : Model) : Bool := m.issues.isEmpty

instance : Written Model :=
  ⟨fun m => .object [("type", write m.kind), ("model", write m.content)]⟩

end Model

end DiagramText
