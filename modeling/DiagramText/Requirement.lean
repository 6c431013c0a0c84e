import DiagramText.Captions
import DiagramText.Direction
import DiagramText.Issue
import DiagramText.Peg.Grammar
import DiagramText.Peg.Lexeme
import DiagramText.Text.Alphanumeric

/-!
# Requirement diagrams

Requirements and the elements that realise them, with relations between them. Requirements and
elements share one space of names. A relation may be written from either end, and it may stand before
the declarations of its ends.
-/

namespace DiagramText.Requirement

/-- The first of several values whose word is `text`, in any case of letters. -/
def byWord? (values : List α) (word : α → String) (text : String) : Option α :=
  values.find? fun a => sameAnyCase (word a) text

/-- What a requirement is about. -/
inductive Topic where
  | requirement | functional | interface | performance | physical | designConstraint
deriving DecidableEq, Inhabited

namespace Topic

/-- The keyword that declares a requirement of this topic. -/
def word : Topic → String
  | requirement => "requirement"
  | functional => "functionalRequirement"
  | interface => "interfaceRequirement"
  | performance => "performanceRequirement"
  | physical => "physicalRequirement"
  | designConstraint => "designConstraint"

/-- The topic with a keyword. -/
def ofWord? : String → Option Topic :=
  byWord? [requirement, functional, interface, performance, physical, designConstraint] word

end Topic

/-- How risky a requirement is. -/
inductive Risk where
  | low | medium | high
deriving DecidableEq, Inhabited

namespace Risk

/-- The word for a risk. -/
def word : Risk → String
  | low => "low"
  | medium => "medium"
  | high => "high"

/-- The risk with a word. -/
def ofWord? : String → Option Risk := byWord? [low, medium, high] word

end Risk

/-- How a requirement is verified. -/
inductive Method where
  | analysis | inspection | test | demonstration
deriving DecidableEq, Inhabited

namespace Method

/-- The word for a method. -/
def word : Method → String
  | analysis => "analysis"
  | inspection => "inspection"
  | test => "test"
  | demonstration => "demonstration"

/-- The method with a word. -/
def ofWord? : String → Option Method := byWord? [analysis, inspection, test, demonstration] word

end Method

/-- How the source of a relation relates to its target. -/
inductive Relation where
  | contains | copies | derives | satisfies | verifies | refines | traces
deriving DecidableEq, Inhabited

namespace Relation

/-- The word for a relation. -/
def word : Relation → String
  | contains => "contains"
  | copies => "copies"
  | derives => "derives"
  | satisfies => "satisfies"
  | verifies => "verifies"
  | refines => "refines"
  | traces => "traces"

/-- The relation with a word. -/
def ofWord? : String → Option Relation :=
  byWord? [contains, copies, derives, satisfies, verifies, refines, traces] word

end Relation

/-- A requirement. -/
structure Item where
  name : String
  topic : Topic
  id : Option String := none
  text : Option String := none
  risk : Option Risk := none
  method : Option Method := none
deriving DecidableEq, Inhabited

/-- An element that realises requirements. -/
structure Element where
  name : String
  type : Option String := none
  docref : Option String := none
deriving DecidableEq, Inhabited

/-- A relation between two named things. -/
structure Link where
  source : String
  target : String
  relation : Relation
deriving DecidableEq, Inhabited

/-- A requirement diagram. -/
structure Diagram where
  captions : Captions := {}
  direction : Direction := .topDown
  requirements : List Item := []
  elements : List Element := []
  links : List Link := []
deriving DecidableEq, Inhabited

namespace Diagram

/-- The requirement of a name. -/
def requirement? (d : Diagram) (name : String) : Option Item :=
  d.requirements.find? (·.name == name)

/-- The element of a name. -/
def element? (d : Diagram) (name : String) : Option Element := d.elements.find? (·.name == name)

/-- Whether a requirement or an element has the name. -/
def contains (d : Diagram) (name : String) : Bool :=
  (d.requirement? name).isSome || (d.element? name).isSome

/-- The diagram with one more requirement; none where its name is taken. -/
def addRequirement? (d : Diagram) (item : Item) : Option Diagram :=
  if d.contains item.name then none
  else some { d with requirements := d.requirements ++ [item] }

/-- The diagram with one more element; none where its name is taken. -/
def addElement? (d : Diagram) (element : Element) : Option Diagram :=
  if d.contains element.name then none else some { d with elements := d.elements ++ [element] }

/-- The diagram with one more relation. -/
def addLink (d : Diagram) (link : Link) : Diagram := { d with links := d.links ++ [link] }

/-- The relations that start at a name. -/
def linksFrom (d : Diagram) (name : String) : List Link := d.links.filter (·.source == name)

/-- The number of requirements and elements. -/
def entityCount (d : Diagram) : Nat := d.requirements.length + d.elements.length

/-- The ends of a relation that the diagram lacks. -/
def missingEnds (d : Diagram) (link : Link) : List String :=
  [link.source, link.target].filter (!d.contains ·)

/-- What is wrong with the diagram. -/
def issues (d : Diagram) : List Issue :=
  Issue.ofCount d.entityCount ++
    d.links.flatMap fun link =>
      (d.missingEnds link).map
        (Issue.danglingReference ("'" ++ link.relation.word ++ "' relationship"))

end Diagram

instance : Written Topic where
  write
    | .requirement => .text "requirement"
    | .functional => .text "functional"
    | .interface => .text "interface"
    | .performance => .text "performance"
    | .physical => .text "physical"
    | .designConstraint => .text "designConstraint"

instance : Written Risk := ⟨fun r => .text r.word⟩
instance : Written Method := ⟨fun m => .text m.word⟩
instance : Written Relation := ⟨fun r => .text r.word⟩

instance : Written Item where
  write r :=
    .object [("name", write r.name), ("kind", write r.topic), ("id", write r.id),
      ("text", write r.text), ("risk", write r.risk), ("verify_method", write r.method)]

instance : Written Element where
  write e :=
    .object [("name", write e.name), ("element_type", write e.type), ("docref", write e.docref)]

instance : Written Link where
  write l :=
    .object [("source", write l.source), ("target", write l.target), ("kind", write l.relation)]

instance : Written Diagram where
  write d :=
    .object (d.captions.accessibleFields ++
      [("direction", write d.direction), ("requirements", write d.requirements),
        ("elements", write d.elements), ("relationships", write d.links)])

/-! ## Documents -/

section

open Peg

/-- A letter, a number, an underscore or a dot makes up a name. -/
def isNameChar (c : Char) : Bool := isAlphanumeric c || c == '_' || c == '.'

/-- A name, which quotes may enclose. -/
def nameRule : Rule :=
  .labelled "name"
    (.choice [quotedString, many1 (.chars (.satisfying isNameChar "name character"))])

/-- The word for a relation. -/
def relationRule : Rule :=
  .labelled "relationship type" (.choice
    (["contains", "copies", "derives", "satisfies", "verifies", "refines", "traces"].map keyword))

/-- A line that sets one of several properties. -/
def propertyRule (keys : List String) : Rule :=
  .sequence
    [.labelled "property" (.capture "property" (.choice (keys.map keyword))), ws, lit ":", ws,
      .capture "value" restOfLine]

/-- A declaration with properties in braces. -/
def blockRule (head : Rule) (keys : List String) : Rule :=
  .sequence
    [head, ws1, .capture "name" nameRule, ws, lit "\x7b", eol,
      .capture "body" (statementLines (propertyRule keys)), ws, lit "\x7d"]

/-- A relation, written from its source or from its target. -/
def relationshipRule : Rule :=
  .capture "relationship" (.choice
    [.sequence
      [.capture "source" nameRule, ws, lit "-", ws, .capture "relation" relationRule, ws,
        lit "->", ws, .capture "target" nameRule],
      .sequence
        [.capture "target" nameRule, ws, lit "<-", ws, .capture "relation" relationRule, ws,
          lit "-", ws, .capture "source" nameRule]])

/-- A declaration, a direction, a caption or a relation. -/
def statementRule : Rule :=
  .labelled "statement" (.choice
    [.capture "requirement" (blockRule
      (.capture "kind" (.choice
        (["functionalRequirement", "interfaceRequirement", "performanceRequirement",
          "physicalRequirement", "designConstraint", "requirement"].map keyword)))
      ["id", "text", "risk", "verifymethod"]),
      .capture "element" (blockRule (keyword "element") ["type", "docref"]),
      .sequence [keyword "direction", ws1, .capture "direction" word],
      accessibility "acc_title" "acc_descr",
      relationshipRule])

/-- The grammar of requirement diagrams. -/
def grammar : Grammar where
  name := "requirementDiagram"
  root :=
    document (keyword "requirementDiagram")
      (.capture "statements" (statementLines (.ref "statement")))
  rules := [("statement", statementRule)]

end

/-- What a document can say that no requirement diagram shows. -/
inductive Fallacy where
  | unknownTopic (text : String)
  | unknownRisk (text : String)
  | unknownMethod (text : String)
  | unknownRelation (text : String)
  | unknownDirection (word : UnknownWord)
  | redeclared (name : String)
  | undeclared (relation : Relation) (name : String)
deriving DecidableEq

instance : Complaint Fallacy where
  message
    | .unknownTopic text => "unknown requirement kind '" ++ text ++ "'"
    | .unknownRisk text => "unknown risk '" ++ text ++ "'"
    | .unknownMethod text => "unknown verify method '" ++ text ++ "'"
    | .unknownRelation text => "unknown relationship '" ++ text ++ "'"
    | .unknownDirection word => word.message
    | .redeclared name => "'" ++ name ++ "' is declared more than once"
    | .undeclared relation name =>
      "'" ++ relation.word ++ "' relationship references undeclared '" ++ name ++ "'"

/-- A statement of a document. -/
inductive Statement where
  | caption (c : Caption)
  | direction (d : Direction)
  | requirement (item : Item)
  | element (e : Element)
  | link (l : Link)
deriving DecidableEq

/-- The value of a property that is given by a word. -/
def wordValue (ofWord? : String → Option α) (fallacy : String → Fallacy) (line : Tree) :
    Reading Fallacy α := do
  let text ← line.needText "value"
  orComplain (ofWord? text) (line.startOf "value") (fallacy text)

/-- The requirement with the property that a line sets. -/
def Item.set (item : Item) (line : Tree) : Reading Fallacy Item := do
  match ← line.needText "property" with
  | "id" => return { item with id := line.string? "value" }
  | "text" => return { item with text := line.string? "value" }
  | "risk" => return { item with risk := some (← wordValue Risk.ofWord? .unknownRisk line) }
  | _ => return { item with method := some (← wordValue Method.ofWord? .unknownMethod line) }

/-- The element with the property that a line sets. -/
def Element.set (element : Element) (line : Tree) : Reading Fallacy Element := do
  match ← line.needText "property" with
  | "type" => return { element with type := line.string? "value" }
  | _ => return { element with docref := line.string? "value" }

/-- The statements of requirement diagrams. -/
def statements : Shapes Fallacy Statement :=
  .ofList
    ([(["requirement"], fun t => do
        let block ← t.needGroup "requirement"
        let text ← block.needText "kind"
        let topic ← orComplain (Topic.ofWord? text) block.span.offset (.unknownTopic text)
        let item : Item := { name := ← block.needString "name", topic }
        return .requirement (← (block.list "body").foldlM Item.set item)),
      (["element"], fun t => do
        let block ← t.needGroup "element"
        let element : Element := { name := ← block.needString "name" }
        return .element (← (block.list "body").foldlM Element.set element)),
      (["relationship"], fun t => do
        let link ← t.needGroup "relationship"
        let text ← link.needText "relation"
        let relation ← orComplain (Relation.ofWord? text) link.span.offset (.unknownRelation text)
        return .link ⟨← link.needString "source", ← link.needString "target", relation⟩),
      (["direction"], fun t => do
        match Direction.ofWord (← t.needText "direction") with
        | .ok direction => return .direction direction
        | .error word => complain t.span.offset (.unknownDirection word))] ++
      Captions.shapes.accessibleShapes .caption)

/-- The diagram after a statement that starts at an offset; relations wait for the declarations. -/
def Diagram.apply (d : Diagram) : Nat × Statement → Reading Fallacy Diagram
  | (_, .caption caption) => .ok { d with captions := d.captions.set caption }
  | (_, .direction direction) => .ok { d with direction }
  | (offset, .requirement item) =>
    orComplain (d.addRequirement? item) offset (.redeclared item.name)
  | (offset, .element element) => orComplain (d.addElement? element) offset (.redeclared element.name)
  | (_, .link _) => .ok d

/-- The diagram with the relation of a statement, whose ends must be declared. -/
def Diagram.applyLink (d : Diagram) : Nat × Statement → Reading Fallacy Diagram
  | (offset, .link link) =>
    match d.missingEnds link with
    | [] => .ok (d.addLink link)
    | name :: _ => complain offset (.undeclared link.relation name)
  | _ => .ok d

/-- Reads a requirement diagram from the syntax tree of its document. -/
def read (t : Tree) : Reading Fallacy Diagram := do
  let placed ← statements.readPlaced (t.list "statements")
  placed.foldlM Diagram.applyLink (← placed.foldlM Diagram.apply {})

end DiagramText.Requirement
