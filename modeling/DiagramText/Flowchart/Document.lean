import DiagramText.Flowchart.Chart
import DiagramText.Peg.Grammar
import DiagramText.Peg.Lexeme
import DiagramText.Text.Alphanumeric

/-!
# Documents of flowcharts

Statements, of which subgraphs hold further statements. A chain of links joins each node of a group
with each node of the next one. An id that a subgraph has anywhere in the document means the subgraph,
so a mention of it makes no node. A subgraph without an id takes its title as its id if that is one
word, and a generated id otherwise.
-/

namespace DiagramText.Flowchart

section

open Peg

/-- The characters of the id of a node. -/
def isNodeChar (c : Char) : Bool := isAlphanumeric c || c == '_'

/-- The id of a node. -/
def idRule : Rule :=
  .labelled "node identifier"
    (many1 (.chars (.satisfying isNodeChar "node identifier character")))

/-- A direction. -/
def directionRule : Rule :=
  .labelled "direction" (.choice [lit "TD", lit "TB", lit "BT", lit "LR", lit "RL"])

/-- What ends a statement: a semicolon or the end of the line. -/
def separatorRule : Rule :=
  .choice
    [.sequence
        [ws, lit ";", ws, .optional (.quiet (.sequence [.optional comment, newline]))],
      eol]

/-- Statements. -/
def bodyRule : Rule :=
  many (.choice [blankLine, .sequence [ws, .ref "statement", separatorRule]])

/-- A label in brackets; the label stops before the characters of `stop`. -/
def bracketsRule (opening stop : String) (closing : Rule) : Rule :=
  .sequence
    [.capture "shape_open" (lit opening),
      .capture "label" (.choice [quotedString, textUntil stop]),
      .capture "shape_close" closing]

/-- The label of a node in the brackets of its shape. -/
def shapeRule : Rule :=
  let slanted := Rule.choice [lit "/]", lit "\\]"]
  .choice
    [bracketsRule "((" ")\r\n" (lit "))"),
      bracketsRule "([" "]\r\n" (lit "])"),
      bracketsRule "(" ")\r\n" (lit ")"),
      bracketsRule "[[" "]\r\n" (lit "]]"),
      bracketsRule "[(" ")\r\n" (lit ")]"),
      bracketsRule "[/" "/\\\r\n" slanted,
      bracketsRule "[\\" "/\\\r\n" slanted,
      bracketsRule "[" "]\r\n" (lit "]"),
      bracketsRule "\x7b\x7b" "\x7d\r\n" (lit "\x7d\x7d"),
      bracketsRule "\x7b" "\x7d\r\n" (lit "\x7d"),
      bracketsRule ">" "]\r\n" (lit "]")]

/-- A node. -/
def nodeRule : Rule :=
  .sequence
    [.notAhead (keyword "end"), .capture "id" idRule, .optional shapeRule,
      .optional (.sequence [lit ":::", .capture "css_class" word])]

/-- A group of nodes. -/
def groupRule : Rule :=
  .sequence
    [.capture "member" nodeRule,
      many (.sequence [ws, lit "&", ws, .capture "member" nodeRule])]

/-- The head of an arrow. -/
def headRule : Rule := oneOf ">ox"

/-- The tail of an arrow, if it has one. -/
def tailRule : Rule := .optional (oneOf "<ox")

/-- A line of dashes or of equals signs, one longer where it has no head. -/
def lineRules (stroke : String) : List Rule :=
  [.sequence [lit (stroke ++ stroke), many (lit stroke), headRule],
    .sequence [lit (stroke ++ stroke ++ stroke), many (lit stroke)]]

/-- An arrow without a label inside. -/
def plainArrowRule : Rule :=
  .capture "arrow" (.sequence
    [tailRule,
      .choice
        (lineRules "-" ++
          [.sequence [lit "-.", many (lit "."), lit "-", .optional headRule]] ++
          lineRules "=" ++ [.sequence [lit "~~~", many (lit "~")]])])

/-- An arrow with a label inside: what opens it, what stops the label, and the rest. -/
def splitArrowRule (opening : String) (stop rest : Rule) : Rule :=
  .sequence
    [.capture "arrow_open" (.sequence [tailRule, lit opening]),
      .capture "edge_label" (.quiet (many1 (.sequence [.notAhead stop, noneOf "\r\n"]))),
      .capture "arrow" rest]

/-- A link between groups. -/
def linkRule : Rule :=
  .labelled "arrow" (.choice
    [.sequence
        [plainArrowRule,
          .optional (.sequence
            [ws, lit "|", .capture "edge_label" (textUntil "|\r\n"), lit "|"])],
      .choice
        [splitArrowRule "--" (lit "--") (.choice (lineRules "-")),
          splitArrowRule "-." (.sequence [many1 (lit "."), lit "-"])
            (.sequence [many1 (lit "."), lit "-", .optional headRule]),
          splitArrowRule "==" (lit "==") (.choice (lineRules "="))]])

/-- A subgraph with its statements. -/
def subgraphRule : Rule :=
  .capture "subgraph" (.sequence
    [keyword "subgraph", ws1,
      .choice
        [.sequence
            [.capture "subgraph_id" idRule, ws, lit "[",
              .capture "subgraph_title" (.choice [quotedString, textUntil "]\r\n"]), lit "]"],
          .capture "subgraph_title" quotedString,
          .capture "subgraph_title" (text1Until ";\r\n" "subgraph title")],
      separatorRule, .capture "body" bodyRule, ws, keyword "end"])

/-- The text of a style. -/
def styleRule : Rule := .capture "style" (text1Until ";\r\n" "style definition")

/-- The wish to style edges. -/
def linkStyleRule : Rule :=
  .capture "link_style" (.sequence
    [keyword "linkStyle", ws1,
      .choice
        [.capture "default" (keyword "default"),
          .sequence
            [.capture "index" integer,
              many (.sequence [ws, lit ",", ws, .capture "index" integer])]],
      .optional (.sequence [ws1, keyword "interpolate", ws1, .capture "interpolate" word]),
      .optional (.sequence [ws1, styleRule])])

/-- What a click on a node does. -/
def clickRule : Rule :=
  .capture "click" (.sequence
    [keyword "click", ws1, .capture "target_id" idRule, ws1,
      .choice
        [.sequence [keyword "href", ws1, .capture "url" quotedString],
          .sequence
            [keyword "call", ws1,
              .capture "callback" (.sequence
                [word, .optional (.sequence [lit "(", textUntil ")\r\n", lit ")"])])],
          .capture "url" quotedString,
          .capture "callback" word],
      .optional (.sequence [ws1, .capture "tooltip" quotedString]),
      .optional (.sequence
        [ws1,
          .capture "link_target"
            (.choice [lit "_blank", lit "_self", lit "_parent", lit "_top"])])])

/-- Any statement. -/
def statementRule : Rule :=
  .labelled "statement" (.choice
    [subgraphRule,
      .capture "direction_statement" (.sequence
        [keyword "direction", ws1, .capture "direction" directionRule]),
      .capture "class_def" (.sequence
        [keyword "classDef", ws1, .capture "name" word,
          many (.sequence [ws, lit ",", ws, .capture "name" word]), ws1, styleRule]),
      .capture "class_statement" (.sequence
        [keyword "class", ws1,
          .sequence
            [.capture "target_id" idRule,
              many (.sequence [ws, lit ",", ws, .capture "target_id" idRule])],
          ws1, .capture "class_name" word]),
      .capture "style_statement" (.sequence
        [keyword "style", ws1, .capture "target_id" idRule, ws1, styleRule]),
      linkStyleRule,
      clickRule,
      accessibility "acc_title" "acc_descr",
      .capture "chain" (.sequence
        [.capture "head" groupRule,
          .capture "links"
            (many1 (.sequence [ws, linkRule, ws, .capture "target" groupRule]))]),
      .capture "nodes" groupRule])

/-- The grammar of flowcharts. -/
def grammar : Grammar where
  name := "flowchart"
  root :=
    .sequence
      [preamble, ws,
        .sequence
          [.choice [keywordAnyCase "flowchart", keywordAnyCase "graph"],
            .optional (.sequence [ws1, .capture "direction" directionRule])],
        separatorRule, .capture "statements" bodyRule, ws, endOfInput]
  rules := [("statement", statementRule)]

end

/-- What a document can say that no flowchart shows. -/
inductive Fallacy where
  | unknownShape (opening closing : String)
  | malformedStyle (text : String)
  | invalidIndex (text : String)
  | unknownDirection (word : UnknownWord)
deriving DecidableEq

instance : Complaint Fallacy where
  message
    | .unknownShape opening closing => "unknown node shape " ++ opening ++ "..." ++ closing
    | .malformedStyle text => "malformed style definition '" ++ text ++ "'"
    | .invalidIndex text => "invalid link index '" ++ text ++ "'"
    | .unknownDirection word => word.message

/-- A mention of a node: its id, its shape with its label, and a style class. -/
structure Mention where
  id : String
  shape : Option (Shape × String) := none
  class? : Option String := none
deriving DecidableEq, Inhabited

/-- A link of a chain, with the group that it leads to. -/
structure Link where
  arrow : Arrow
  label : Option String
  targets : List Mention
deriving DecidableEq, Inhabited

/-- A statement of a document. -/
inductive Statement where
  | caption (c : Caption)
  | direction (d : Direction)
  | nodes (group : List Mention)
  | chain (first : List Mention) (links : List Link)
  | subgraph (id : Option String) (title : String) (body : List Statement)
  | defineClass (names : List String) (style : Style)
  | assignClass (targets : List String) (name : String)
  | style (target : String) (style : Style)
  | edgeStyle (indexes : Option (List Nat)) (style : Style)
  | click (i : Interaction)

/-! ## Reading -/

/-- The style of a statement. -/
def styleOf (t : Tree) : Reading Fallacy Style := do
  let text ← t.needText "style"
  orComplain (Style.ofText? text) t.span.offset (.malformedStyle text)

/-- The direction in a field. -/
def directionOf (t : Tree) : Reading Fallacy Direction := do
  match Direction.ofWord (← t.needText "direction") with
  | .ok direction => return direction
  | .error word => .error ⟨none, .complaint (.unknownDirection word)⟩

/-- The mention of a node. -/
def mentionOf (t : Tree) : Reading Fallacy Mention := do
  let shape ← match t.text? "shape_open", t.text? "shape_close" with
    | some opening, some closing => do
      let shape ← orComplain (Shape.ofDelimiters? opening closing) t.span.offset
        (.unknownShape opening closing)
      pure (some (shape, (t.string? "label").getD ""))
    | _, _ => pure none
  return { id := ← t.needText "id", shape, class? := t.filled? "css_class" }

/-- The group of nodes in a field. -/
def groupOf (t : Tree) (field : String) : Reading Fallacy (List Mention) := do
  let group ← t.needGroup field
  ((group.getAll "member").filterMap Node.tree?).mapM mentionOf

/-- A link of a chain. -/
def linkOf (t : Tree) : Reading Fallacy Link := do
  let token ← t.needText "arrow"
  let arrow := Arrow.ofToken (t.filled? "arrow_open") token
  return { arrow, label := t.string? "edge_label", targets := ← groupOf t "target" }

/-- The index of an edge. -/
def indexOf (node : DiagramText.Node) : Reading Fallacy Nat :=
  orComplain (Numeral.index? node.text) node.offset (.invalidIndex node.text)

/-- What a click does. -/
def clickOf (t : Tree) : Reading Fallacy Interaction := do
  let action ← match t.string? "url" with
    | some url => pure (ClickAction.link url (t.filled? "link_target"))
    | none => do pure (ClickAction.callback (← t.needText "callback"))
  return { target := ← t.needText "target_id", action, tooltip := t.string? "tooltip" }

/-- The statements of flowcharts, where `body` reads those inside a subgraph. -/
def statements (body : List Tree → Reading Fallacy (List Statement)) :
    Shapes Fallacy Statement :=
  .ofList
    ([(["nodes"], fun t => do return .nodes (← groupOf t "nodes")),
      (["chain"], fun t => do
        let chain ← t.needGroup "chain"
        return .chain (← groupOf chain "head") (← (chain.list "links").mapM linkOf)),
      (["subgraph"], fun t => do
        let s ← t.needGroup "subgraph"
        let inner ← body (s.list "body")
        return .subgraph (s.filled? "subgraph_id") (← s.needString "subgraph_title") inner),
      (["direction_statement"], fun t => do
        return .direction (← directionOf (← t.needGroup "direction_statement"))),
      (["class_def"], fun t => do
        let d ← t.needGroup "class_def"
        return .defineClass ((d.getAll "name").map Node.text) (← styleOf d)),
      (["class_statement"], fun t => do
        let s ← t.needGroup "class_statement"
        return .assignClass ((s.getAll "target_id").map Node.text) (← s.needText "class_name")),
      (["style_statement"], fun t => do
        let s ← t.needGroup "style_statement"
        return .style (← s.needText "target_id") (← styleOf s)),
      (["link_style"], fun t => do
        let s ← t.needGroup "link_style"
        let indexes ← if s.has "default" then pure none
          else (some <$> (s.getAll "index").mapM indexOf)
        return .edgeStyle indexes (← if s.has "style" then styleOf s else pure {})),
      (["click"], fun t => do return .click (← clickOf (← t.needGroup "click")))] ++
      Captions.shapes.accessibleShapes .caption)

/-- Reads statements inside at most `depth` subgraphs; deeper ones are left out. -/
def readBody : Nat → List Tree → Reading Fallacy (List Statement)
  | 0, _ => .ok []
  | depth + 1, trees => (statements (readBody depth)).readAll trees

/-! ## Naming subgraphs -/

/-- The id of a subgraph, and how many ids have then been generated if `count` were before. -/
def subgraphId (count : Nat) (id : Option String) (title : String) : String × Nat :=
  match id with
  | some id => (id, count)
  | none =>
    if title != "" && !title.toList.any isBlank then (title, count)
    else ("subGraph" ++ toString count, count + 1)

mutual

/-- The ids of the subgraphs of a statement, outer ones first, and how many ids have then been generated
if `count` were before. -/
def subgraphIds (count : Nat) : Statement → List String × Nat
  | .subgraph id title body =>
    let (id, count) := subgraphId count id title
    let (ids, count) := allSubgraphIds count body
    (id :: ids, count)
  | _ => ([], count)

/-- The ids of the subgraphs of statements, outer ones first, and how many ids have then been
generated. -/
def allSubgraphIds (count : Nat) : List Statement → List String × Nat
  | [] => ([], count)
  | s :: rest =>
    let (ids, count) := subgraphIds count s
    let (more, count) := allSubgraphIds count rest
    (ids ++ more, count)

end

/-! ## Putting statements into a chart -/

/-- What the statements inside a subgraph have made so far: the chart, the number of ids that were
generated, what the statements mention, and the direction that they ask for. -/
structure Scope where
  chart : Chart
  generated : Nat := 0
  members : List String := []
  direction : Option Direction := none
deriving DecidableEq, Inhabited

namespace Scope

/-- The scope with another chart. -/
def onChart (s : Scope) (change : Chart → Chart) : Scope := { s with chart := change s.chart }

/-- The scope after a mention of a node, or of a subgraph if `reserved` holds its id. -/
def mention (reserved : List String) (s : Scope) (m : Mention) : Scope :=
  let declared (c : Chart) : Chart :=
    let c := match m.shape with
      | some (shape, label) => c.addNode { id := m.id, label, shape }
      | none => c.ensureNode m.id
    match m.class? with
    | some name => c.addNodeClass m.id name
    | none => c
  { s with
    chart := if reserved.contains m.id then s.chart else declared s.chart
    members := Distinct.add s.members m.id }

/-- The scope after the mentions of a group. -/
def mentionAll (reserved : List String) (s : Scope) (group : List Mention) : Scope :=
  group.foldl (mention reserved) s

/-- The edges of a link from each node of a group. -/
def edgesOf (sources : List Mention) (link : Link) : List Edge :=
  sources.flatMap fun source => link.targets.map fun target =>
    { source := source.id, target := target.id, arrow := link.arrow, label := link.label }

/-- The scope after the links of a chain that goes on from a group. -/
def follow (reserved : List String) (sources : List Mention) (s : Scope) : List Link → Scope
  | [] => s
  | link :: rest =>
    let s := s.mentionAll reserved link.targets
    follow reserved link.targets (s.onChart ((edgesOf sources link).foldl Chart.addEdge)) rest

mutual

/-- The scope inside `parent` after a statement. -/
def apply (reserved : List String) (parent : Option String) (s : Scope) : Statement → Scope
  | .caption caption => s.onChart fun c => { c with captions := c.captions.set caption }
  | .direction d =>
    if parent.isSome then { s with direction := some d }
    else s.onChart ({ · with direction := d })
  | .nodes group => s.mentionAll reserved group
  | .chain first links => (s.mentionAll reserved first).follow reserved first links
  | .subgraph id title body =>
    let (id, generated) := subgraphId s.generated id title
    let inner := applyAll reserved (some id) { chart := s.chart, generated } body
    { s with
      chart := inner.chart.addSubgraph
        { id, title, members := inner.members, parent, direction := inner.direction }
      generated := inner.generated
      members := Distinct.addAll s.members inner.members ++ [id] }
  | .defineClass names style => s.onChart (names.foldl (·.defineClass · style))
  | .assignClass targets name => s.onChart (targets.foldl (·.assignClass · name))
  | .style target style => s.onChart (·.addNodeStyle target style)
  | .edgeStyle none style => s.onChart (·.addEdgeStyle none style)
  | .edgeStyle (some indexes) style =>
    s.onChart (indexes.foldl fun c index => c.addEdgeStyle (some index) style)
  | .click i => s.onChart (·.addClick i)

/-- The scope inside `parent` after statements. -/
def applyAll (reserved : List String) (parent : Option String) (s : Scope) :
    List Statement → Scope
  | [] => s
  | statement :: rest => applyAll reserved parent (apply reserved parent s statement) rest

end

end Scope

/-- The flowchart of statements, which starts out in this direction. The ids of subgraphs are known
before any statement is carried out, so that a link may lead to a subgraph that comes later. -/
def Chart.ofStatements (direction : Direction) (body : List Statement) : Chart :=
  let reserved := (allSubgraphIds 0 body).1
  (Scope.applyAll reserved none { chart := { direction := direction } } body).chart

/-- Reads a flowchart from the syntax tree of its document. -/
def read (t : Tree) : Reading Fallacy Chart := do
  let direction ← if (t.filled? "direction").isSome then directionOf t else pure .topDown
  return .ofStatements direction (← readBody t.height (t.list "statements"))

end DiagramText.Flowchart
