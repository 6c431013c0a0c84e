import DiagramText.Table
import DiagramText.Value

/-!
# Graphs for layout

The form in which models that are graphs are handed to a layout algorithm: nodes, edges between the
ids of nodes, and options. The sizes of nodes are not known yet.
-/

namespace DiagramText

namespace Graph

/-- A node to be placed. -/
structure Node where
  id : String
  label : String
  metadata : Table String := []
deriving DecidableEq, Inhabited

/-- An edge to be routed. -/
structure Edge where
  source : String
  target : String
  labels : List String := []
  metadata : Table String := []
deriving DecidableEq, Inhabited

/-- The labels of an edge that may have one; an empty label is none. -/
def labels (label : Option String) : List String := (label.filter (· != "")).toList

end Graph

/-- A graph with the options of its layout. -/
structure Graph where
  nodes : List Graph.Node
  edges : List Graph.Edge
  options : Table String
deriving DecidableEq, Inhabited

namespace Graph

/-- The options of a layout. -/
def layout (algorithm direction : String) : Table String :=
  [("algorithm", algorithm), ("direction", direction)]

/-- The node with an id. -/
def node? (g : Graph) (id : String) : Option Node := g.nodes.find? (·.id == id)

/-- A table as an object. -/
def writeTable [Written α] (table : Table α) : Value :=
  .object (table.map fun (key, value) => (key, write value))

instance : Written Node where
  write n :=
    .object [("id", write n.id), ("width", .float 0), ("height", .float 0),
      ("label", write n.label), ("metadata", writeTable n.metadata)]

instance : Written Edge where
  write e :=
    .object [("source", write e.source), ("target", write e.target), ("labels", write e.labels),
      ("metadata", writeTable e.metadata)]

instance : Written Graph where
  write g :=
    .object [("nodes", write g.nodes), ("edges", write g.edges),
      ("options", writeTable g.options)]

end Graph

end DiagramText
