import DiagramText.ClassDiagram.Diagram
import DiagramText.Peg.Grammar
import DiagramText.Peg.Lexeme

/-!
# Documents of class diagrams

Statements, of which namespaces hold further statements. A relationship is written with a line
between two markers; a marker on the left alone makes the right class the source.
-/

namespace DiagramText.ClassDiagram

section

open Peg

/-- The name of a class. -/
def nameRule : Rule := .labelled "class name" ident

/-- A type parameter. -/
def genericRule : Rule :=
  .sequence [lit "~", .capture "generic" (text1Until "~\r\n" "generic type"), lit "~"]

/-- A style class behind a name. -/
def styleClassRule : Rule := .sequence [lit ":::", .capture "css_class" word]

/-- An annotation. -/
def annotationRule : Rule :=
  .sequence [lit "<<", .capture "annotation" (text1Until ">\r\n" "annotation"), lit ">>"]

/-- The members and annotations of a class, in braces. -/
def membersRule : Rule :=
  .sequence
    [ws, lit "\x7b", .optional eol,
      .capture "members"
        (statementLines
          (.choice [annotationRule, .capture "member" (text1Until "\x7d\r\n" "member")])),
      ws, .labelled "'\x7d'" (lit "\x7d")]

/-- A class. -/
def classRule : Rule :=
  .capture "class" (.sequence
    [keyword "class", ws1, .capture "class_id" nameRule, .optional genericRule,
      .optional (.sequence [ws, lit "[", ws, .capture "label" quotedString, ws, lit "]"]),
      .optional styleClassRule, .optional membersRule])

/-- A namespace with its statements. -/
def namespaceRule : Rule :=
  .capture "namespace" (.sequence
    [keyword "namespace", ws1, .capture "name" nameRule, ws, lit "\x7b", eol,
      .capture "body" (statementLines (.ref "statement")), ws,
      .labelled "'\x7d'" (lit "\x7d")])

/-- The line of a relationship with the markers at its ends. -/
def operatorRule : Rule :=
  .labelled "relationship operator" (.capture "operator" (.sequence
    [.optional
        (.capture "left_end" (.choice [lit "<|", lit "*", lit "o", lit "<", lit "()"])),
      .capture "line" (.choice [lit "--", lit ".."]),
      .optional (.capture "right_end"
        (.choice
          [lit "|>", lit "*", .sequence [lit "o", .notAhead word], lit ">", lit "()"]))]))

/-- A relationship. -/
def relationRule : Rule :=
  .capture "relation" (.sequence
    [.capture "from" nameRule, .optional genericRule, ws,
      .optional (.sequence [.capture "from_cardinality" quotedString, ws]), operatorRule, ws,
      .optional (.sequence [.capture "to_cardinality" quotedString, ws]),
      .capture "to" nameRule, .optional genericRule,
      .optional (.sequence [ws, lit ":", ws, .capture "label" restOfLine])])

/-- A tooltip. -/
def tooltipRule : Rule := .optional (.sequence [ws1, .capture "tooltip" quotedString])

/-- The window in which a link opens. -/
def windowRule : Rule :=
  .optional (.sequence
    [ws1,
      .capture "link_target"
        (.choice [lit "_blank", lit "_self", lit "_parent", lit "_top"])])

/-- What a click on a class does. -/
def clickRule : Rule :=
  .capture "click" (.choice
    [.sequence
        [keyword "link", ws1, .capture "class_id" nameRule, ws1, .capture "url" quotedString,
          tooltipRule, windowRule],
      .sequence
        [keyword "callback", ws1, .capture "class_id" nameRule, ws1,
          .capture "callback" quotedString, tooltipRule],
      .sequence
        [keyword "click", ws1, .capture "class_id" nameRule, ws1,
          .choice
            [.sequence
                [keyword "href", ws1, .capture "url" quotedString, tooltipRule, windowRule],
              .sequence
                [keyword "call", ws1,
                  .capture "callback" (.sequence
                    [ident, .optional (.sequence [lit "(", textUntil ")\r\n", lit ")"])]),
                  tooltipRule]]]])

/-- Any statement. -/
def statementRule : Rule :=
  .labelled "statement" (.choice
    [namespaceRule,
      classRule,
      .capture "annotate" (.sequence [annotationRule, ws, .capture "class_id" nameRule]),
      .capture "note" (.sequence
        [keyword "note", ws1,
          .optional (.sequence [keyword "for", ws1, .capture "class_id" nameRule, ws1]),
          .capture "text" quotedString]),
      clickRule,
      .sequence
        [keyword "direction", ws1,
          .capture "direction"
            (.labelled "direction"
              (.choice [lit "TB", lit "TD", lit "BT", lit "LR", lit "RL"]))],
      .capture "css_class_statement" (.sequence
        [keyword "cssClass", ws1, .capture "targets" quotedString, ws1,
          .capture "css_class" word]),
      .capture "style_statement" (.sequence
        [keyword "style", ws1, .capture "class_id" nameRule, ws1,
          .capture "style" (text1Until "\r\n" "style definition")]),
      title "title",
      accessibility "acc_title" "acc_descr",
      relationRule,
      .capture "member_line" (.sequence
        [.capture "class_id" nameRule, ws, lit ":", ws,
          .capture "member" (text1Until "\r\n" "member")]),
      .capture "reference" (.sequence
        [.capture "class_id" nameRule, .optional genericRule, .optional styleClassRule])])

/-- The grammar of class diagrams. -/
def grammar : Grammar where
  name := "class"
  root :=
    document (.choice [keyword "classDiagram-v2", keyword "classDiagram"])
      (.capture "statements" (statementLines (.ref "statement")))
  rules := [("statement", statementRule)]

end

/-- What a document can say that no class diagram shows. -/
inductive Fallacy where
  | unreadableMember (text : String)
  | malformedStyle (text : String)
  | unknownDirection (word : UnknownWord)
deriving DecidableEq

instance : Complaint Fallacy where
  message
    | .unreadableMember text => "cannot read class member '" ++ text ++ "'"
    | .malformedStyle text => "malformed style definition '" ++ text ++ "'"
    | .unknownDirection word => word.message

/-- A statement of a document. -/
inductive Statement where
  | caption (c : Caption)
  | direction (d : Direction)
  | declare (c : Class)
  | annotate (id : String) (text : String)
  | member (id : String) (m : Member)
  | relationship (r : Relationship)
  | namespace (name : String) (body : List Statement)
  | note (n : Note)
  | click (i : Interaction)
  | styleClass (targets : List String) (name : String)
  | style (id : String) (style : Style)

/-! ## Reading -/

/-- The member of a line. -/
def memberOf (line : Tree) : Reading Fallacy Member := do
  let text ← line.needText "member"
  orComplain (Member.ofText? text) (line.startOf "member") (.unreadableMember text)

/-- The class that a statement names, with its generic type, its label and its style class. -/
def classNamed (t : Tree) : Reading Fallacy Class := do
  return {
    id := ← t.needText "class_id"
    generic := t.filled? "generic"
    label := t.string? "label"
    styleClasses := (t.filled? "css_class").toList }

/-- The class with what a line of its body adds. -/
def withLine (c : Class) (line : Tree) : Reading Fallacy Class :=
  match line.filled? "annotation" with
  | some text => .ok { c with annotations := c.annotations ++ [text] }
  | none => do return c.addMember (← memberOf line)

/-- The relationship of a statement. -/
def relationshipOf (t : Tree) : Reading Fallacy Relationship := do
  let operator ← t.needGroup "operator"
  let left := operator.text? "left_end"
  let right := operator.text? "right_end"
  let dashed := (← operator.needText "line") == ".."
  let source ← t.needText "from"
  let target ← t.needText "to"
  let forward : Relationship :=
    { source, target
      kind := RelationshipKind.ofEnd right dashed
      bidirectional := left.isSome && right.isSome
      label := t.string? "label"
      sourceCardinality := t.string? "from_cardinality"
      targetCardinality := t.string? "to_cardinality" }
  if left.isSome && right.isNone then
    return { forward with
      source := target
      target := source
      kind := RelationshipKind.ofEnd left dashed
      sourceCardinality := forward.targetCardinality
      targetCardinality := forward.sourceCardinality }
  else return forward

/-- What a click does. -/
def clickOf (t : Tree) : Reading Fallacy Interaction := do
  let action ← match t.string? "url" with
    | some url => pure (ClickAction.link url (t.filled? "link_target"))
    | none => do pure (ClickAction.callback (← t.needString "callback"))
  return { target := ← t.needText "class_id", action, tooltip := t.string? "tooltip" }

/-- The statements of class diagrams, where `body` reads those inside a namespace. -/
def statements (body : List Tree → Reading Fallacy (List Statement)) : Shapes Fallacy Statement :=
  .ofList
    ([(["namespace"], fun t => do
        let ns ← t.needGroup "namespace"
        return .namespace (← ns.needText "name") (← body (ns.list "body"))),
      (["class"], fun t => do
        let declaration ← t.needGroup "class"
        return .declare (← (declaration.list "members").foldlM withLine (← classNamed declaration))),
      (["annotate"], fun t => do
        let a ← t.needGroup "annotate"
        return .annotate (← a.needText "class_id") (← a.needText "annotation")),
      (["note"], fun t => do
        let note ← t.needGroup "note"
        return .note ⟨note.filled? "class_id", ← note.needString "text"⟩),
      (["click"], fun t => do return .click (← clickOf (← t.needGroup "click"))),
      (["direction"], fun t => do
        match Direction.ofWord (← t.needText "direction") with
        | .ok direction => return .direction direction
        | .error word => complain t.span.offset (.unknownDirection word)),
      (["css_class_statement"], fun t => do
        let s ← t.needGroup "css_class_statement"
        let targets := (splitOnChar (← s.needString "targets") ',').map trim
        return .styleClass (targets.filter (· != "")) (← s.needText "css_class")),
      (["style_statement"], fun t => do
        let s ← t.needGroup "style_statement"
        let text ← s.needText "style"
        let style ← orComplain (Style.ofText? text) s.span.offset (.malformedStyle text)
        return .style (← s.needText "class_id") style),
      (["relation"], fun t => do
        return .relationship (← relationshipOf (← t.needGroup "relation"))),
      (["member_line"], fun t => do
        let line ← t.needGroup "member_line"
        return .member (← line.needText "class_id") (← memberOf line)),
      (["reference"], fun t => do
        return .declare (← classNamed (← t.needGroup "reference")))] ++
      Captions.shapes .caption)

/-- Reads statements inside at most `depth` namespaces; deeper ones are left out. -/
def readBody : Nat → List Tree → Reading Fallacy (List Statement)
  | 0, _ => .ok []
  | depth + 1, trees => (statements (readBody depth)).readAll trees

/-! ## Putting statements into a diagram -/

/-- The ids of the classes that statements declare, those inside namespaces aside. -/
def declared (body : List Statement) : List String :=
  body.filterMap fun
    | .declare c => some c.id
    | _ => none

namespace Diagram

mutual

/-- The diagram after a statement. -/
def apply (d : Diagram) : Statement → Diagram
  | .caption caption => { d with captions := d.captions.set caption }
  | .direction direction => { d with direction }
  | .declare c => d.addClass c
  | .annotate id text =>
    d.changeClass id (fun c => { c with annotations := c.annotations ++ [text] }) ⟨fun _ => rfl⟩
  | .member id m => d.changeClass id (·.addMember m) ⟨fun c => c.id_addMember m⟩
  | .relationship r => ((d.ensureClass r.source).ensureClass r.target).addRelationship r
  | .namespace name body => (applyAll d body).addNamespace name (declared body)
  | .note n => d.addNote n
  | .click i => d.addInteraction i
  | .styleClass targets name => targets.foldl (·.assignStyleClass · name) d
  | .style id style => d.addStyle id style

/-- The diagram after statements. -/
def applyAll (d : Diagram) : List Statement → Diagram
  | [] => d
  | s :: rest => applyAll (apply d s) rest

end

end Diagram

/-- Reads a class diagram from the syntax tree of its document. -/
def read (t : Tree) : Reading Fallacy Diagram := do
  return Diagram.applyAll {} (← readBody t.height (t.list "statements"))

end DiagramText.ClassDiagram
