import DiagramText.Issue
import DiagramText.Peg.Grammar
import DiagramText.Peg.Lexeme
import DiagramText.Reading
import DiagramText.Value

/-!
# Mind maps

A mind map is a tree of nodes. Indentation says what belongs to what: the parent of a node is the
last node before it that is indented less. An icon or a list of classes decorates the node before it.
-/

namespace DiagramText.Mindmap

/-- The outline of a node. -/
inductive Shape where
  | plain | square | rounded | circle | bang | cloud | hexagon
deriving DecidableEq, Inhabited

/-- The outline that opens with a delimiter. -/
def Shape.ofDelimiter? : String → Option Shape
  | "[" => some square
  | "(" => some rounded
  | "((" => some circle
  | "))" => some bang
  | ")" => some cloud
  | "\x7b\x7b" => some hexagon
  | _ => none

/-- A node; its parent and its children are places in the list of all nodes. -/
structure Item where
  id : String
  label : String
  shape : Shape
  icon : Option String := none
  classes : List String := []
  parent : Option Nat
  children : List Nat := []
  level : Nat
deriving DecidableEq, Inhabited

/-- A mind map. -/
structure Map where
  nodes : List Item := []
deriving DecidableEq, Inhabited

namespace Map

/-- The node at a place. -/
def node? (m : Map) (i : Nat) : Option Item := m.nodes[i]?

/-- The map in which the node at a place is changed. -/
def modify (m : Map) (i : Nat) (change : Item → Item) : Map := ⟨m.nodes.modify i change⟩

/-- The map with one more node. A parent that is not there yet counts for nothing but itself. -/
def addNode (m : Map) (parent : Option Nat) (id label : String) (shape : Shape) : Map :=
  let level := (parent.bind m.node?).elim 0 (·.level + 1)
  let place := m.nodes.length
  let withChild := parent.elim m fun p =>
    m.modify p fun node => { node with children := node.children ++ [place] }
  ⟨withChild.nodes ++ [{ id := id, label, shape, parent, level }]⟩

/-- The first node without a parent. -/
def root? (m : Map) : Option Item := m.nodes.find? (·.parent.isNone)

/-- The children of the node at a place. -/
def children (m : Map) (i : Nat) : List Item :=
  ((m.node? i).elim [] Item.children).filterMap m.node?

/-- The first node with an id. -/
def find? (m : Map) (id : String) : Option Item := m.nodes.find? (·.id == id)

/-- The number of levels. -/
def depth (m : Map) : Nat := (m.nodes.map (·.level + 1)).foldl max 0

/-- The number of nodes. -/
def entityCount (m : Map) : Nat := m.nodes.length

/-- What is wrong with the map. -/
def issues (m : Map) : List Issue :=
  if m.nodes.isEmpty then [.empty]
  else
    let roots := m.nodes.countP (·.parent.isNone)
    (if roots = 1 then []
      else
        [.invalidEntity "mindmap" ("expected exactly one root, found " ++ toString roots)]) ++
      m.nodes.filterMap fun node =>
        (node.parent.filter (m.nodes.length ≤ ·)).map fun parent =>
          .danglingReference ("parent of '" ++ node.id ++ "'") (toString parent)

end Map

instance : Written Shape where
  write
    | .plain => .text "default"
    | .square => .text "square"
    | .rounded => .text "rounded"
    | .circle => .text "circle"
    | .bang => .text "bang"
    | .cloud => .text "cloud"
    | .hexagon => .text "hexagon"

instance : Written Item where
  write n :=
    .object [("id", write n.id), ("label", write n.label), ("shape", write n.shape),
      ("icon", write n.icon), ("classes", write n.classes), ("parent", write n.parent),
      ("children", write n.children), ("level", write n.level)]

instance : Written Map where
  write m := .object [("nodes", write m.nodes)]

/-! ## Documents -/

section

open Peg

/-- A text between two delimiters. -/
def delimited (opening stop closing : String) : Rule :=
  .sequence [.capture "shape" (lit opening), .capture "text" (textUntil stop), lit closing]

/-- The label of a node inside its outline. -/
def shapeRule : Rule :=
  .labelled "node shape" (.choice
    [delimited "((" ")\r\n" "))",
      delimited "))" "(\r\n" "((",
      delimited "\x7b\x7b" "\x7d\r\n" "\x7d\x7d",
      delimited "[" "]\r\n" "]",
      delimited "(" ")\r\n" ")",
      delimited ")" "(\r\n" "("])

/-- Classes, an icon or a node. -/
def statementRule : Rule :=
  .labelled "statement" (.choice
    [.sequence [lit ":::", ws, .capture "classes" restOfLine],
      .sequence [lit "::icon(", .capture "icon" (textUntil ")\r\n"), lit ")"],
      .capture "node" (.sequence
        [.capture "id" (text1Until "[(\x7b)\r\n" "node"), .optional shapeRule])])

/-- The grammar of mind maps. -/
def grammar : Grammar where
  name := "mindmap"
  root :=
    document (keyword "mindmap")
      (.capture "lines"
        (many (.choice [blankLine, .sequence [.capture "indent" ws, .ref "statement", eol]])))
  rules := [("statement", statementRule)]

end

/-- What a document can say that no mind map shows. -/
inductive Fallacy where
  | unknownShape (delimiter : String)
  | secondRoot (id : String)
  | looseIcon
  | looseClass
deriving DecidableEq

instance : Complaint Fallacy where
  message
    | .unknownShape delimiter => "unknown shape '" ++ delimiter ++ "'"
    | .secondRoot id => "'" ++ id ++ "' would be a second root; a mindmap has exactly one"
    | .looseIcon => "icon without a preceding node"
    | .looseClass => "class without a preceding node"

/-- What a line says. -/
inductive Statement where
  | node (id label : String) (shape : Shape)
  | icon (name : String)
  | classes (names : List String)
deriving DecidableEq

/-- The lines of mind maps. -/
def statements : Shapes Fallacy Statement :=
  .ofList
    [(["node"], fun t => do
      let node ← t.needGroup "node"
      let id ← node.needText "id"
      match node.text? "shape" with
      | none => return .node id id .plain
      | some delimiter =>
        let shape ←
          orComplain (Shape.ofDelimiter? delimiter) node.span.offset (.unknownShape delimiter)
        return .node id (if shape = .plain then id else (node.string? "text").getD "") shape),
      (["icon"], fun t => do return .icon (← t.needText "icon")),
      (["classes"], fun t => do return .classes (words (← t.needText "classes")))]

/-- A line with its place in the document and its indentation. -/
structure Line where
  offset : Nat
  indent : Nat
  statement : Statement
deriving DecidableEq

/-- A map under construction. The open nodes, the last one first, are those that the next node may
belong to, each with its indentation. -/
structure Draft where
  map : Map := {}
  opened : List (Nat × Nat) := []
deriving DecidableEq, Inhabited

/-- The place of the last node. -/
def Draft.last? (d : Draft) : Option Nat :=
  if d.map.nodes.isEmpty then none else some (d.map.nodes.length - 1)

/-- The draft after a line. -/
def Draft.apply (d : Draft) (line : Line) : Reading Fallacy Draft :=
  match line.statement with
  | .node id label shape =>
    let opened := d.opened.dropWhile (line.indent ≤ ·.1)
    let parent := opened.head?.map (·.2)
    if parent.isNone && !d.map.nodes.isEmpty then complain line.offset (.secondRoot id)
    else
      .ok ⟨d.map.addNode parent id label shape, (line.indent, d.map.nodes.length) :: opened⟩
  | .icon name => do
    let last ← orComplain d.last? line.offset .looseIcon
    return { d with map := d.map.modify last ({ · with icon := some name }) }
  | .classes names => do
    let last ← orComplain d.last? line.offset .looseClass
    return { d with
      map := d.map.modify last fun node => { node with classes := node.classes ++ names } }

/-- Reads a mind map from the syntax tree of its document. -/
def read (t : Tree) : Reading Fallacy Map := do
  let trees := t.list "lines"
  let lines := (trees.zip (← statements.readAll trees)).map fun (tree, statement) =>
    (⟨tree.span.offset, (tree.text? "indent").elim 0 String.length, statement⟩ : Line)
  return (← lines.foldlM Draft.apply {}).map

end DiagramText.Mindmap
