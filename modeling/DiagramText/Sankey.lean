import DiagramText.Indexed
import DiagramText.Issue
import DiagramText.Peg.Grammar
import DiagramText.Peg.Lexeme
import DiagramText.Reading
import DiagramText.Text.Csv
import DiagramText.Text.Decimal
import DiagramText.Value

/-!
# Sankey diagrams

Flows between nodes. A document is a table of comma-separated rows, each with a source, a target and
a value; the nodes are the names in the rows, in the order in which they first occur.
-/

namespace DiagramText.Sankey

/-- A flow from one node to another. -/
structure Link where
  source : String
  target : String
  value : Float

/-- A value that a flow may have. -/
def isFlow (x : Float) : Bool := x.isFinite && x ≥ 0

/-- A node is its name, which is its id. -/
scoped instance : Keyed String := ⟨fun name => name⟩

/-- A network of flows. The nodes are kept in a roster. -/
structure Network where
  roster : Roster String := ∅
  links : List Link := []

namespace Network

/-- The nodes. -/
def nodes (n : Network) : List String := n.roster.entries

/-- Whether there is a node of this name. -/
def hasNode (n : Network) (name : String) : Bool := n.roster.has name

/-- The network with a node of this name, where it was not there before. -/
def addNode (n : Network) (name : String) : Network := { n with roster := n.roster.ensure name }

/-- The place of a node. -/
def index? (n : Network) (name : String) : Option Nat := n.roster.place? name

theorem hasNode_eq (n : Network) (name : String) : n.hasNode name = n.nodes.contains name := by
  rw [hasNode, n.roster.has_eq, Bool.eq_iff_iff, Keyed.has_iff, Keyed.ids, List.contains_iff_mem]
  exact iff_of_eq (congrArg (name ∈ ·) (List.map_id' n.nodes))

theorem nodes_addNode (n : Network) (name : String) : (n.addNode name).nodes = Distinct.add n.nodes name := by
  refine (n.roster.entries_ensure name).trans ?_
  rw [Keyed.ensure_eq, ← n.roster.has_eq, Distinct.add, ← hasNode_eq]
  rfl

/-- The network with one more flow. -/
def addLink (n : Network) (l : Link) : Network := { n with links := n.links ++ [l] }

/-- The sum of the flows out of a node. -/
def outflow (n : Network) (node : String) : Float :=
  ((n.links.filter (·.source == node)).map Link.value).foldl (· + ·) 0

/-- The sum of the flows into a node. -/
def inflow (n : Network) (node : String) : Float :=
  ((n.links.filter (·.target == node)).map Link.value).foldl (· + ·) 0

/-- The number of flows. -/
def entityCount (n : Network) : Nat := n.links.length

/-- What is wrong with a flow. -/
def linkIssues (n : Network) (l : Link) : List Issue :=
  ([l.source, l.target].filter (!n.hasNode ·)).map (Issue.danglingReference "link") ++
    if isFlow l.value then []
    else
      [.invalidEntity (l.source ++ " -> " ++ l.target)
        ("value " ++ decimalText l.value ++ " is not a finite non-negative number")]

/-- What is wrong with the network. -/
def issues (n : Network) : List Issue :=
  Issue.ofCount n.links.length ++ n.links.flatMap n.linkIssues

end Network

instance : Written Link where
  write l :=
    .object [("source", write l.source), ("target", write l.target), ("value", write l.value)]

instance : Written Network where
  write n := .object [("nodes", write n.nodes), ("links", write n.links)]

/-! ## Documents -/

section

open Peg

/-- A field of a row, in quotes or up to the next comma. -/
def fieldRule : Rule :=
  .choice
    [.sequence
      [lit "\"", .quiet (many (.choice [lit "\"\"", noneOf "\"\r\n"])),
        .labelled "closing quote" (lit "\"")],
      text1Until ",\r\n" "field"]

/-- A row: source, target and value. -/
def rowRule : Rule :=
  .labelled "row" (.sequence
    [.capture "source" fieldRule, .labelled "','" (lit ","),
      .capture "target" fieldRule, .labelled "','" (lit ","),
      .capture "value" (text1Until ",\r\n" "value")])

/-- The grammar of Sankey diagrams. -/
def grammar : Grammar where
  name := "sankey"
  root :=
    document (.choice [keyword "sankey-beta", keyword "sankey"])
      (.capture "statements" (statementLines rowRule))
  rules := []

end

/-- What a document can say that no flow is. -/
inductive Fallacy where
  | noFlow (text : String)
deriving DecidableEq

instance : Complaint Fallacy where
  message
    | .noFlow text => "'" ++ text ++ "' is not a finite non-negative value"

/-- The rows of Sankey diagrams. -/
def rows : Shapes Fallacy Link :=
  .ofList
    [(["source", "target", "value"], fun t => do
      let text ← t.needText "value"
      let value ←
        orComplain ((Numeral.float? text).filter isFlow) (t.startOf "value") (.noFlow text)
      return ⟨csvField (← t.needText "source"), csvField (← t.needText "target"), value⟩)]

/-- The network with a row: its two nodes and its flow. -/
def Network.addRow (n : Network) (l : Link) : Network :=
  ((n.addNode l.source).addNode l.target).addLink l

/-- Reads a network from the syntax tree of its document. -/
def read (t : Tree) : Reading Fallacy Network := do
  return (← rows.readAll (t.list "statements")).foldl Network.addRow {}

end DiagramText.Sankey
