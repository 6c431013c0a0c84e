import DiagramText.Captions
import DiagramText.Direction
import DiagramText.Distinct
import DiagramText.Flowchart.Arrow
import DiagramText.Flowchart.Shape
import DiagramText.Graph
import DiagramText.Indexed
import DiagramText.Interaction
import DiagramText.Issue

/-!
# Flowcharts

Nodes, edges between them, and subgraphs that hold nodes and further subgraphs. A node that is given
again takes the new label and shape and keeps its style classes beside the new ones. What is a member
of one subgraph becomes no member of a later one.
-/

namespace DiagramText.Flowchart

/-- A node. -/
structure Node where
  id : String
  label : String
  shape : Shape := .rectangle
  classes : List String := []
deriving DecidableEq, Inhabited

instance : Keyed Node := ⟨Node.id⟩

namespace Node

/-- The node with what another declaration of it says. -/
def join (node other : Node) : Node :=
  { node with
    label := other.label
    shape := other.shape
    classes := Distinct.addAll node.classes other.classes }

end Node

/-- An edge. -/
structure Edge where
  source : String
  target : String
  arrow : Arrow := {}
  label : Option String := none
deriving DecidableEq, Inhabited

/-- A subgraph. -/
structure Subgraph where
  id : String
  title : String
  members : List String
  parent : Option String := none
  direction : Option Direction := none
deriving DecidableEq, Inhabited

/-- A flowchart. The nodes are kept in a roster. Styles of edges are for the edge of an index or for all edges. -/
structure Chart where
  captions : Captions := {}
  direction : Direction := .topDown
  roster : Roster Node := ∅
  edges : List Edge := []
  subgraphs : List Subgraph := []
  classes : Table Style := []
  classAssignments : List (String × String) := []
  nodeStyles : List (String × Style) := []
  edgeStyles : List (Option Nat × Style) := []
  clicks : List Interaction := []
deriving DecidableEq, Inhabited

namespace Chart

/-- The nodes. -/
def nodes (c : Chart) : List Node := c.roster.entries

/-- The chart with one more node, or with what the node says of the one of its id. -/
def addNode (c : Chart) (node : Node) : Chart := { c with roster := c.roster.add Node.join node ⟨fun _ => rfl⟩ }

/-- The chart with a node of this id. -/
def ensureNode (c : Chart) (id : String) : Chart := { c with roster := c.roster.ensure { id, label := id } }

/-- The chart in which a node, if it is there, has a style class. -/
def addNodeClass (c : Chart) (id name : String) : Chart :=
  { c with
    roster :=
      c.roster.change id (fun node => { node with classes := Distinct.add node.classes name }) ⟨fun _ => rfl⟩ }

/-- Whether there is a node with the id. -/
def hasNode (c : Chart) (id : String) : Bool := c.roster.has id

/-- The node with an id. -/
def node? (c : Chart) (id : String) : Option Node := c.roster.find? id

theorem hasNode_eq (c : Chart) (id : String) : c.hasNode id = Keyed.has c.nodes id := c.roster.has_eq id

theorem node?_eq (c : Chart) (id : String) : c.node? id = Keyed.find? c.nodes id := c.roster.find?_eq id

theorem nodes_addNode (c : Chart) (node : Node) : (c.addNode node).nodes = Keyed.add Node.join c.nodes node := by
  simp only [nodes, addNode, Roster.entries_add]

theorem nodes_ensureNode (c : Chart) (id : String) :
    (c.ensureNode id).nodes = Keyed.ensure c.nodes { id, label := id } :=
  c.roster.entries_ensure _

theorem nodes_addNodeClass (c : Chart) (id name : String) :
    (c.addNodeClass id name).nodes =
      Keyed.update c.nodes id fun node => { node with classes := Distinct.add node.classes name } := by
  simp only [nodes, addNodeClass, Roster.entries_change]

/-- The chart with one more edge. -/
def addEdge (c : Chart) (edge : Edge) : Chart := { c with edges := c.edges ++ [edge] }

/-- The targets of the edges that start at a node. -/
def successors (c : Chart) (id : String) : List String :=
  (c.edges.filter (·.source == id)).map Edge.target

/-- The sources of the edges that end at a node. -/
def predecessors (c : Chart) (id : String) : List String :=
  (c.edges.filter (·.target == id)).map Edge.source

/-- The members of all subgraphs. -/
def claimed (c : Chart) : List String := c.subgraphs.flatMap Subgraph.members

/-- The chart with one more subgraph, whose members are those that no earlier subgraph has. -/
def addSubgraph (c : Chart) (s : Subgraph) : Chart :=
  { c with
    subgraphs :=
      c.subgraphs ++ [{ s with members := s.members.filter (!c.claimed.contains ·) }] }

/-- The subgraph with an id. -/
def subgraph? (c : Chart) (id : String) : Option Subgraph := c.subgraphs.find? (·.id == id)

/-- The subgraph that something is a member of. -/
def subgraphOf? (c : Chart) (id : String) : Option Subgraph :=
  c.subgraphs.find? (·.members.contains id)

/-- The chart with a style for a style class, in place of the one it had. -/
def defineClass (c : Chart) (name : String) (style : Style) : Chart :=
  { c with classes := c.classes.insert name style }

/-- The style of a style class. -/
def classStyle? (c : Chart) (name : String) : Option Style := Table.get? c.classes name

/-- The chart in which a node or a subgraph is assigned a style class. -/
def assignClass (c : Chart) (id name : String) : Chart :=
  { c.addNodeClass id name with classAssignments := c.classAssignments ++ [(id, name)] }

/-- The chart with a style for a node or a subgraph. -/
def addNodeStyle (c : Chart) (id : String) (style : Style) : Chart :=
  { c with nodeStyles := c.nodeStyles ++ [(id, style)] }

/-- The chart with a style for the edge of an index, or for all edges. -/
def addEdgeStyle (c : Chart) (index : Option Nat) (style : Style) : Chart :=
  { c with edgeStyles := c.edgeStyles ++ [(index, style)] }

/-- The chart with one more click. -/
def addClick (c : Chart) (click : Interaction) : Chart := { c with clicks := c.clicks ++ [click] }

/-- Styles laid over each other, if that gives any property. -/
def overlay? (styles : List Style) : Option Style :=
  some (styles.foldl Style.merge {}) |>.filter (!·.isEmpty)

/-- The style of a node: those of its style classes, and over them its own. -/
def nodeStyle? (c : Chart) (id : String) : Option Style := do
  let node ← c.node? id
  overlay? (node.classes.filterMap c.classStyle? ++
    (c.nodeStyles.filter (·.1 == id)).map (·.2))

/-- The style of the edge of an index. -/
def edgeStyle? (c : Chart) (index : Nat) : Option Style :=
  overlay? ((c.edgeStyles.filter fun (target, _) => target.all (· == index)).map (·.2))

/-- The chart with the accessible captions that are given. -/
def setAccessible (c : Chart) (title description : Option String) : Chart :=
  { c with
    captions := { c.captions with
      accTitle := title.or c.captions.accTitle
      accDescr := description.or c.captions.accDescr } }

/-- The chart without anything but its direction. -/
def clear (c : Chart) : Chart := { direction := c.direction }

/-- The number of nodes. -/
def entityCount (c : Chart) : Nat := c.nodes.length

/-- Whether a node or a subgraph has the id. -/
def isTarget (c : Chart) (id : String) : Bool := c.hasNode id || (c.subgraph? id).isSome

/-- Issues for those of the ids that neither a node nor a subgraph has. -/
def unknown (c : Chart) (context : String) (ids : List String) : List Issue :=
  (ids.filter (!c.isTarget ·)).map (Issue.danglingReference context)

/-- What is wrong with the chart. -/
def issues (c : Chart) : List Issue :=
  Issue.ofCount c.nodes.length ++
    c.unknown "edge" (c.edges.flatMap fun e => [e.source, e.target]) ++
    c.unknown "class directive" (c.classAssignments.map (·.1)) ++
    c.unknown "style directive" (c.nodeStyles.map (·.1)) ++
    ((c.edgeStyles.filterMap (·.1)).filter (c.edges.length ≤ ·)).map
      (fun index => .danglingReference "linkStyle" (toString index)) ++
    ((c.clicks.map Interaction.target).filter (!c.hasNode ·)).map (.danglingReference "click") ++
    ((c.subgraphs.map Subgraph.id).filter c.hasNode).map .duplicateId

/-- The chart as a graph for layout. -/
def toGraph (c : Chart) : Graph where
  nodes := c.nodes.map fun node =>
    { id := node.id
      label := node.label
      metadata :=
        ("shape", node.shape.name) ::
          ((c.subgraphOf? node.id).map fun s => ("subgraph", s.id)).toList }
  edges := c.edges.map fun e =>
    { source := e.source
      target := e.target
      labels := Graph.labels e.label
      metadata := [("stroke", e.arrow.stroke.name), ("head", e.arrow.head.name)] }
  options := Graph.layout "layered" c.direction.word

end Chart

instance : Written Node where
  write n :=
    .object [("id", write n.id), ("label", write n.label), ("shape", write n.shape),
      ("classes", write n.classes)]

instance : Written Edge where
  write e :=
    .object [("from", write e.source), ("to", write e.target), ("stroke", write e.arrow.stroke),
      ("head", write e.arrow.head), ("tail", write e.arrow.tail), ("label", write e.label),
      ("length", write e.arrow.length)]

instance : Written Subgraph where
  write s :=
    .object [("id", write s.id), ("title", write s.title), ("members", write s.members),
      ("parent", write s.parent), ("direction", write s.direction)]

instance : Written Chart where
  write c :=
    .object (c.captions.fields ++
      [("direction", write c.direction), ("nodes", write c.nodes), ("edges", write c.edges),
        ("subgraphs", write c.subgraphs), ("class_defs", Graph.writeTable c.classes),
        ("class_assignments", write c.classAssignments), ("node_styles", write c.nodeStyles),
        ("edge_styles", write c.edgeStyles),
        ("clicks", write (c.clicks.map (·.writeOn "node")))])

end DiagramText.Flowchart
