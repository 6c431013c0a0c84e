import DiagramText.Er.Schema
import DiagramText.Peg.Grammar
import DiagramText.Peg.Lexeme
import DiagramText.Text.Alphanumeric

/-!
# Documents of entity-relationship schemas

A document declares entities and relationships in any order; a relationship declares its two ends if
nothing else does.
-/

namespace DiagramText.Er

section

open Peg

/-- The characters of the type of an attribute. -/
def isTypeChar (c : Char) : Bool :=
  isAlphanumeric c || c == '_' || c == '-' || c == '(' || c == ')' || c == '[' || c == ']'

/-- The characters of the name of an attribute. -/
def isAttributeChar (c : Char) : Bool :=
  isAlphanumeric c || c == '_' || c == '-' || c == '*' || c == '.'

/-- The name of an entity, which quotes may enclose. -/
def nameRule : Rule := .labelled "entity name" (.choice [quotedString, word])

/-- A key of an attribute. -/
def keyRule : Rule :=
  .capture "key" (.labelled "key" (.choice [keyword "PK", keyword "FK", keyword "UK"]))

/-- An attribute: its type, its name, its keys and a comment. -/
def attributeRule : Rule :=
  .labelled "attribute" (.sequence
    [.capture "type" (many1 (.chars (.satisfying isTypeChar "attribute type character"))), ws1,
      .capture "name" (many1 (.chars (.satisfying isAttributeChar "attribute name character"))),
      .optional (.sequence
        [ws1, keyRule, many (.sequence [ws, lit ",", ws, keyRule])]),
      .optional (.sequence [ws1, .capture "comment" quotedString])])

/-- An entity with attributes in braces. -/
def entityRule : Rule :=
  .capture "entity" (.sequence
    [.capture "name" nameRule,
      .optional (.sequence
        [lit "[", ws, .capture "alias" (.choice [quotedString, text1Until "]\r\n" "alias"]), ws,
          lit "]"]),
      .optional (.sequence [lit ":::", .capture "css_class" word]),
      ws, lit "\x7b",
      .choice
        [.sequence [ws, lit "\x7d"],
          .sequence
            [eol, .capture "attributes" (statementLines attributeRule), ws,
              .labelled "'\x7d'" (lit "\x7d")]]])

/-- A relationship. -/
def relationshipRule : Rule :=
  .capture "relationship" (.sequence
    [.capture "from" nameRule, ws,
      .capture "from_cardinality"
        (.labelled "cardinality" (.choice [lit "|o", lit "||", lit "\x7do", lit "\x7d|"])),
      .capture "line" (.labelled "relationship line" (.choice [lit "--", lit ".."])),
      .capture "to_cardinality"
        (.labelled "cardinality" (.choice [lit "o|", lit "||", lit "o\x7b", lit "|\x7b"])),
      ws, .capture "to" nameRule, ws, .labelled "':'" (lit ":"), ws,
      .capture "label" (.choice [quotedString, text1Until "\r\n" "relationship label"])])

/-- A direction, a caption, a relationship or an entity. -/
def statementRule : Rule :=
  .labelled "statement" (.choice
    [.sequence
      [keyword "direction", ws1,
        .capture "direction"
          (.labelled "direction"
            (.choice [lit "TB", lit "TD", lit "BT", lit "LR", lit "RL"]))],
      title "title",
      accessibility "acc_title" "acc_descr",
      relationshipRule,
      entityRule,
      .capture "entity" (.sequence [.capture "name" nameRule])])

/-- The grammar of schemas. -/
def grammar : Grammar where
  name := "er"
  root :=
    document (keyword "erDiagram") (.capture "statements" (statementLines (.ref "statement")))
  rules := [("statement", statementRule)]

end

/-- What a document can say that no schema shows. -/
inductive Fallacy where
  | unknownKey (text : String)
  | unknownCardinality (marker : String)
  | unknownDirection (word : UnknownWord)
deriving DecidableEq

instance : Complaint Fallacy where
  message
    | .unknownKey text => "unknown key '" ++ text ++ "'"
    | .unknownCardinality marker => "unknown cardinality '" ++ marker ++ "'"
    | .unknownDirection word => word.message

/-- A statement of a document. -/
inductive Statement where
  | caption (c : Caption)
  | direction (d : Direction)
  | entity (e : Entity)
  | relationship (r : Relationship)
deriving DecidableEq

/-- The attribute of a line. -/
def attributeOf (line : Tree) : Reading Fallacy Attribute := do
  let type ← line.needText "type"
  let name ← line.needText "name"
  let keys ← (line.getAll "key").mapM fun node =>
    orComplain (Key.ofWord? (trim node.text)) node.offset (.unknownKey node.text)
  return { type, name, keys, comment := line.string? "comment" }

/-- The cardinality that a marker gives. -/
def cardinality (t : Tree) (field : String) (ofMarker? : String → Option Cardinality) :
    Reading Fallacy Cardinality := do
  let marker ← t.needText field
  orComplain (ofMarker? marker) t.span.offset (.unknownCardinality marker)

/-- The statements of schemas. -/
def statements : Shapes Fallacy Statement :=
  .ofList
    ([(["entity"], fun t => do
        let entity ← t.needGroup "entity"
        let id ← entity.needString "name"
        return .entity
          { id, label := entity.string? "alias"
            attributes := ← (entity.list "attributes").mapM attributeOf
            classes := (entity.filled? "css_class").toList }),
      (["relationship"], fun t => do
        let r ← t.needGroup "relationship"
        return .relationship
          { source := ← r.needString "from"
            target := ← r.needString "to"
            sourceCardinality := ← cardinality r "from_cardinality" Cardinality.ofLeft?
            targetCardinality := ← cardinality r "to_cardinality" Cardinality.ofRight?
            identifying := (← r.needText "line") == "--"
            label := ← r.needString "label" }),
      (["direction"], fun t => do
        match Direction.ofWord (← t.needText "direction") with
        | .ok direction => return .direction direction
        | .error word => complain t.span.offset (.unknownDirection word))] ++
      Captions.shapes .caption)

/-- The schema after a statement. -/
def Schema.apply (s : Schema) : Statement → Schema
  | .caption caption => { s with captions := s.captions.set caption }
  | .direction direction => { s with direction }
  | .entity e => s.addEntity e
  | .relationship r => ((s.ensureEntity r.source).ensureEntity r.target).addRelationship r

/-- Reads a schema from the syntax tree of its document. -/
def read (t : Tree) : Reading Fallacy Schema := do
  return (← statements.readAll (t.list "statements")).foldl Schema.apply {}

end DiagramText.Er
