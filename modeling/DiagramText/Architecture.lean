import DiagramText.Captions
import DiagramText.Graph
import DiagramText.Issue
import DiagramText.Peg.Grammar
import DiagramText.Peg.Lexeme

/-!
# Architecture diagrams

Groups, services and junctions, nested in groups, and edges between their sides. An edge joins
services or junctions; with the mark of a group it joins the group around its end. In a document every
group that is named must be declared, and no group may lie inside itself; a diagram that is put
together by hand may break these rules, which `issues` then tells.
-/

namespace DiagramText.Architecture

/-- What a node is. -/
inductive Role where
  | group | service | junction
deriving DecidableEq, Inhabited

namespace Role

/-- The keyword that declares a node of this role. -/
def word : Role → String
  | group => "group"
  | service => "service"
  | junction => "junction"

/-- The role with a keyword. -/
def ofWord? : String → Option Role
  | "group" => some group
  | "service" => some service
  | "junction" => some junction
  | _ => none

end Role

/-- A side of a node. -/
inductive Side where
  | left | right | top | bottom
deriving DecidableEq, Inhabited

namespace Side

/-- The letter for a side. -/
def letter : Side → String
  | left => "L"
  | right => "R"
  | top => "T"
  | bottom => "B"

/-- The side with a letter. -/
def ofLetter? : String → Option Side
  | "L" => some left
  | "R" => some right
  | "T" => some top
  | "B" => some bottom
  | _ => none

/-- Whether edges leave the side horizontally. -/
def isHorizontal : Side → Bool
  | left | right => true
  | top | bottom => false

end Side

/-- A group, a service or a junction. -/
structure Item where
  id : String
  role : Role
  icon : Option String := none
  title : Option String := none
  parent : Option String := none
deriving DecidableEq, Inhabited

/-- An end of an edge. -/
structure Terminal where
  id : String
  side : Side
  arrow : Bool := false
  group : Bool := false
deriving DecidableEq, Inhabited

/-- An edge. -/
structure Edge where
  source : Terminal
  target : Terminal
  label : Option String := none
deriving DecidableEq, Inhabited

/-- An architecture diagram. -/
structure Diagram where
  captions : Captions := {}
  nodes : List Item := []
  edges : List Edge := []
deriving DecidableEq, Inhabited

namespace Diagram

/-- The node with an id. -/
def node? (d : Diagram) (id : String) : Option Item := d.nodes.find? (·.id == id)

/-- The diagram with one more node; none where its id is taken. -/
def addNode? (d : Diagram) (node : Item) : Option Diagram :=
  if (d.node? node.id).isSome then none else some { d with nodes := d.nodes ++ [node] }

/-- The diagram with one more edge. -/
def addEdge (d : Diagram) (edge : Edge) : Diagram := { d with edges := d.edges ++ [edge] }

/-- The nodes of a role. -/
def nodesOf (d : Diagram) (role : Role) : List Item := d.nodes.filter (·.role == role)

/-- The nodes directly inside a group. -/
def children (d : Diagram) (group : String) : List Item := d.nodes.filter (·.parent == some group)

/-- The id of the group that a node is in. -/
def parent? (d : Diagram) (id : String) : Option String := (d.node? id).bind Item.parent

/-- The parents from `current` on, behind those of `chain`, until there is none or one comes back to `id` or to
one of the chain. -/
def climb (d : Diagram) (id : String) : Nat → List String → Option String → List String
  | _, chain, none => chain
  | 0, chain, some _ => chain
  | more + 1, chain, some parent =>
    if parent = id || chain.contains parent then chain
    else d.climb id more (chain ++ [parent]) (d.parent? parent)

/-- The groups around a node, the innermost first, as far as they do not repeat. There are no more of them than
nodes. -/
def ancestors (d : Diagram) (id : String) : List String := d.climb id d.nodes.length [] (d.parent? id)

/-- Whether the parents from `current` on come to `id` before they come to one of `seen`. -/
def returns (d : Diagram) (id : String) : Nat → List String → Option String → Bool
  | _, _, none => false
  | 0, _, some _ => false
  | more + 1, seen, some parent =>
    if parent = id then true
    else if seen.contains parent then false
    else d.returns id more (parent :: seen) (d.parent? parent)

/-- Whether a node lies inside itself. -/
def inCycle (d : Diagram) (id : String) : Bool := d.returns id d.nodes.length [] (d.parent? id)

/-- The number of nodes. -/
def entityCount (d : Diagram) : Nat := d.nodes.length

/-- What is wrong with the place of a node. -/
def parentIssues (d : Diagram) (node : Item) : List Issue :=
  match node.parent with
  | none => []
  | some parent =>
    match d.node? parent with
    | none => [.danglingReference ("parent of '" ++ node.id ++ "'") parent]
    | some p =>
      if p.role != .group then
        [.invalidEntity node.id
          ("parent '" ++ parent ++ "' is a " ++ p.role.word ++ ", not a group")]
      else if d.inCycle node.id then [.invalidEntity node.id "group nesting forms a cycle"]
      else []

/-- What is wrong with the nodes, where those with the ids `seen` came before. -/
def nodeIssues (d : Diagram) (seen : List String) : List Item → List Issue
  | [] => []
  | node :: nodes =>
    (if seen.contains node.id then [.duplicateId node.id] else []) ++ d.parentIssues node ++
      d.nodeIssues (node.id :: seen) nodes

/-- What is wrong with the diagram. -/
def issues (d : Diagram) : List Issue :=
  Issue.ofCount d.nodes.length ++ d.nodeIssues [] d.nodes ++
    d.edges.flatMap fun edge =>
      ([edge.source.id, edge.target.id].filter fun id => (d.node? id).isNone).map
        (Issue.danglingReference "edge")

/-- The diagram as a graph for layout. -/
def toGraph (d : Diagram) : Graph where
  nodes := d.nodes.map fun node =>
    { id := node.id
      label := node.title.getD node.id
      metadata := ("kind", node.role.word) :: (node.parent.map fun p => ("parent", p)).toList }
  edges := d.edges.map fun edge =>
    { source := edge.source.id
      target := edge.target.id
      labels := Graph.labels edge.label
      metadata :=
        [("source_side", edge.source.side.letter), ("target_side", edge.target.side.letter)] }
  options := Graph.layout "architecture" "TB"

end Diagram

instance : Written Role := ⟨fun r => .text r.word⟩

instance : Written Side where
  write
    | .left => .text "Left"
    | .right => .text "Right"
    | .top => .text "Top"
    | .bottom => .text "Bottom"

instance : Written Item where
  write n :=
    .object [("id", write n.id), ("kind", write n.role), ("icon", write n.icon),
      ("title", write n.title), ("parent", write n.parent)]

instance : Written Terminal where
  write t :=
    .object [("id", write t.id), ("side", write t.side), ("arrow", write t.arrow),
      ("group", write t.group)]

instance : Written Edge where
  write e :=
    .object [("source", write e.source), ("target", write e.target), ("label", write e.label)]

instance : Written Diagram where
  write d := .object (d.captions.fields ++ [("nodes", write d.nodes), ("edges", write d.edges)])

/-! ## Documents -/

section

open Peg

/-- A declaration: its keyword, an id, an icon, a title and the group around it. -/
def declarationRule : Rule :=
  .capture "node" (.sequence
    [.capture "kind" (.choice [keyword "group", keyword "service", keyword "junction"]), ws1,
      .capture "id" word,
      .optional (.sequence [lit "(", .capture "icon" (textUntil ")\r\n"), lit ")"]),
      .optional (.sequence [ws, lit "[", .capture "label" (textUntil "]\r\n"), lit "]"]),
      .optional (.sequence [ws1, keyword "in", ws1, .capture "parent" word])])

/-- The letter for a side. -/
def sideRule : Rule := .labelled "side (L, R, T or B)" (oneOf "LRTB")

/-- An id, which the mark of a group may follow. -/
def terminalRule (id group : String) : Rule :=
  .sequence [.capture id word, .optional (.capture group (lit "\x7bgroup\x7d"))]

/-- An edge. -/
def edgeRule : Rule :=
  .capture "edge" (.sequence
    [terminalRule "source" "source_group", lit ":", .capture "source_side" sideRule, ws,
      .optional (.capture "source_arrow" (lit "<")), lit "-",
      .choice
        [.sequence [lit "[", .capture "label" (textUntil "]\r\n"), lit "]", lit "-"], lit "-"],
      .optional (.capture "target_arrow" (lit ">")), ws,
      .capture "target_side" sideRule, lit ":", terminalRule "target" "target_group"])

/-- A caption, a declaration or an edge. -/
def statementRule : Rule :=
  .labelled "statement" (.choice
    [title "title", accessibility "acc_title" "acc_descr", declarationRule, edgeRule])

/-- The grammar of architecture diagrams. -/
def grammar : Grammar where
  name := "architecture"
  root :=
    document (.choice [keyword "architecture-beta", keyword "architecture"])
      (.capture "statements" (statementLines (.ref "statement")))
  rules := [("statement", statementRule)]

end

/-- What a document can say that no architecture diagram shows. -/
inductive Fallacy where
  | unknownSide (letter : String)
  | unknownRole (word : String)
  | decoratedJunction (id : String)
  | redeclared (id : String)
  | undeclaredGroup (id group : String)
  | notGroup (id parent : String) (role : Role)
  | nestedInItself (id : String)
  | undeclared (id : String)
  | notInGroup (id : String)
  | attachedToGroup (id : String)
deriving DecidableEq

instance : Complaint Fallacy where
  message
    | .unknownSide letter => "unknown side '" ++ letter ++ "'"
    | .unknownRole word => "unknown declaration '" ++ word ++ "'"
    | .decoratedJunction id => "junction '" ++ id ++ "' cannot have an icon or title"
    | .redeclared id => "'" ++ id ++ "' is declared more than once"
    | .undeclaredGroup id group => "'" ++ id ++ "' is in undeclared group '" ++ group ++ "'"
    | .notGroup id parent role =>
      "'" ++ id ++ "' is in '" ++ parent ++ "', which is a " ++ role.word ++ " and not a group"
    | .nestedInItself id => "group '" ++ id ++ "' is nested inside itself"
    | .undeclared id => "edge references undeclared '" ++ id ++ "'"
    | .notInGroup id => "'" ++ id ++ "\x7bgroup\x7d' is not inside a group"
    | .attachedToGroup id =>
      "edge attaches to group '" ++ id ++ "'; connect a service or junction, or use \x7bgroup\x7d"

/-- A statement of a document. -/
inductive Statement where
  | caption (c : Caption)
  | node (n : Item)
  | edge (e : Edge)
deriving DecidableEq

/-- An end of an edge from its four fields. -/
def terminal (edge : Tree) (id side arrow group : String) : Reading Fallacy Terminal := do
  let id ← edge.needText id
  let letter ← edge.needText side
  let side ← orComplain (Side.ofLetter? letter) edge.span.offset (.unknownSide letter)
  return ⟨id, side, edge.has arrow, edge.has group⟩

/-- The statements of architecture diagrams. -/
def statements : Shapes Fallacy Statement :=
  .ofList (Captions.shapes .caption ++
    [(["node"], fun t => do
      let node ← t.needGroup "node"
      let word ← node.needText "kind"
      let role ← orComplain (Role.ofWord? word) node.span.offset (.unknownRole word)
      let id ← node.needText "id"
      let icon := node.filled? "icon"
      let title := node.string? "label"
      if role = .junction && (icon.isSome || title.isSome) then
        complain node.span.offset (.decoratedJunction id)
      return .node { id, role, icon, title, parent := node.filled? "parent" }),
      (["edge"], fun t => do
        let edge ← t.needGroup "edge"
        return .edge
          { source := ← terminal edge "source" "source_side" "source_arrow" "source_group"
            target := ← terminal edge "target" "target_side" "target_arrow" "target_group"
            label := edge.string? "label" })])

/-- The diagram after a statement that starts at an offset; edges wait for the declarations. -/
def Diagram.apply (d : Diagram) : Nat × Statement → Reading Fallacy Diagram
  | (_, .caption caption) => .ok { d with captions := d.captions.set caption }
  | (offset, .node node) => orComplain (d.addNode? node) offset (.redeclared node.id)
  | (_, .edge _) => .ok d

/-- Complains about a node whose parent is no proper group for it. -/
def Diagram.checkParent (d : Diagram) : Nat × Statement → Reading Fallacy Unit
  | (offset, .node node) =>
    match node.parent with
    | none => .ok ()
    | some parent =>
      match d.node? parent with
      | none => complain offset (.undeclaredGroup node.id parent)
      | some p =>
        if p.role != .group then complain offset (.notGroup node.id parent p.role)
        else if d.inCycle node.id then complain offset (.nestedInItself node.id)
        else .ok ()
  | _ => .ok ()

/-- What is wrong with an end of an edge. -/
def Diagram.terminalFallacy? (d : Diagram) (t : Terminal) : Option Fallacy :=
  match d.node? t.id with
  | none => some (.undeclared t.id)
  | some node =>
    if t.group then if node.parent.isNone then some (.notInGroup t.id) else none
    else if node.role = .group then some (.attachedToGroup t.id)
    else none

/-- The diagram with the edge of a statement. -/
def Diagram.applyEdge (d : Diagram) : Nat × Statement → Reading Fallacy Diagram
  | (offset, .edge edge) =>
    match [edge.source, edge.target].findSome? d.terminalFallacy? with
    | some e => complain offset e
    | none => .ok (d.addEdge edge)
  | _ => .ok d

/-- Reads an architecture diagram from the syntax tree of its document. -/
def read (t : Tree) : Reading Fallacy Diagram := do
  let placed ← statements.readPlaced (t.list "statements")
  let declared ← placed.foldlM Diagram.apply {}
  placed.forM declared.checkParent
  placed.foldlM Diagram.applyEdge declared

end DiagramText.Architecture
