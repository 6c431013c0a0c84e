import DiagramText.Peg.Grammar
import DiagramText.Peg.Lexeme
import DiagramText.StateDiagram.Diagram
import DiagramText.Text.Alphanumeric

/-!
# Documents of state diagrams

Statements, of which composite states hold further statements. A state belongs to the composite state
around its first mention, and there to the region that the breaks before the mention have opened. The
mark `[*]` stands for the start of the composite state around it where it is the source of a
transition, and for its end where it is the target.
-/

namespace DiagramText.StateDiagram

section

open Peg

/-- The characters of the id of a state. -/
def isStateChar (c : Char) : Bool := isAlphanumeric c || c == '_'

/-- The id of a state. -/
def idRule : Rule :=
  .labelled "state identifier"
    (many1 (.chars (.satisfying isStateChar "state identifier character")))

/-- A mention of a state, or the mark of a start or an end. -/
def mentionRule : Rule :=
  .choice
    [.capture "terminal" (lit "[*]"),
      .sequence
        [.capture "id" idRule, .optional (.sequence [lit ":::", .capture "css_class" word])]]

/-- A composite state with its statements. -/
def compositeRule : Rule :=
  .capture "composite" (.sequence
    [keyword "state", ws1,
      .optional (.sequence [.capture "label" quotedString, ws1, keyword "as", ws1]),
      .capture "id" idRule, ws, lit "\x7b", eol,
      .capture "body" (statementLines
        (.choice
          [.capture "region_break" (.sequence [lit "--", .notAhead (lit ">")]),
            .ref "statement"])),
      ws, .labelled "'\x7d'" (lit "\x7d")])

/-- The line that ends a note of several lines. -/
def endNoteRule : Rule := .sequence [ws, keyword "end", ws1, keyword "note"]

/-- A note of one line or of several. -/
def noteRule : Rule :=
  .capture "note" (.sequence
    [keyword "note", ws1,
      .capture "position" (.choice
        [.sequence [keyword "left", ws1, keyword "of"],
          .sequence [keyword "right", ws1, keyword "of"]]),
      ws1, .capture "id" idRule,
      .choice
        [.sequence [ws, lit ":", ws, .capture "text" restOfLine],
          .sequence
            [eol,
              .capture "text"
                (.quiet (many (.sequence [.notAhead endNoteRule, restOfLine, newline]))),
              .labelled "'end note'" endNoteRule]]])

/-- Any statement. -/
def statementRule : Rule :=
  .labelled "statement" (.choice
    [compositeRule,
      .capture "stereotyped" (.sequence
        [keyword "state", ws1, .capture "id" idRule, ws, lit "<<",
          .capture "stereotype"
            (.labelled "stereotype"
              (.choice [keyword "choice", keyword "fork", keyword "join"])),
          lit ">>"]),
      .capture "declaration" (.sequence
        [keyword "state", ws1,
          .choice
            [.sequence
                [.capture "label" quotedString, ws1, keyword "as", ws1, .capture "id" idRule],
              .sequence
                [.capture "id" idRule,
                  .optional (.sequence [ws, lit ":", ws, .capture "text" restOfLine])]]]),
      noteRule,
      .sequence
        [keyword "direction", ws1,
          .capture "direction"
            (.labelled "direction"
              (.choice [lit "TB", lit "TD", lit "BT", lit "LR", lit "RL"]))],
      .capture "class_def" (.sequence
        [keyword "classDef", ws1, .capture "name" word, ws1,
          .capture "style" (text1Until "\r\n" "style definition")]),
      .capture "class_statement" (.sequence
        [keyword "class", ws1, .capture "target_id" idRule,
          many (.sequence [ws, lit ",", ws, .capture "target_id" idRule]), ws1,
          .capture "name" word]),
      accessibility "acc_title" "acc_descr",
      .capture "transition" (.sequence
        [.capture "from" mentionRule, ws, .labelled "'-->'" (lit "-->"), ws,
          .capture "to" mentionRule,
          .optional (.sequence [ws, lit ":", ws, .capture "label" restOfLine])]),
      .capture "description" (.sequence
        [.capture "id" idRule, ws, lit ":", ws, .capture "text" restOfLine]),
      .capture "reference" mentionRule])

/-- The grammar of state diagrams. -/
def grammar : Grammar where
  name := "state"
  root :=
    document (.choice [keyword "stateDiagram-v2", keyword "stateDiagram"])
      (.capture "statements" (statementLines (.ref "statement")))
  rules := [("statement", statementRule)]

end

/-- What a document can say that no state diagram shows. -/
inductive Fallacy where
  | unknownStereotype (word : String)
  | malformedStyle (text : String)
  | unknownDirection (word : UnknownWord)
deriving DecidableEq

instance : Complaint Fallacy where
  message
    | .unknownStereotype word => "unknown stereotype '" ++ word ++ "'"
    | .malformedStyle text => "malformed style definition '" ++ text ++ "'"
    | .unknownDirection word => word.message

/-- A mention of a state, perhaps with a style class, or the mark of a start or an end. -/
inductive Mention where
  | terminal
  | named (id : String) (class? : Option String)
deriving DecidableEq, Inhabited

/-- A statement of a document. -/
inductive Statement where
  | accessible (c : Caption)
  | direction (d : Direction)
  | composite (id : String) (label : Option String) (body : List Statement)
  | regionBreak
  | declare (s : State)
  | transition (source target : Mention) (label : Option String)
  | reference (m : Mention)
  | note (n : Note)
  | defineClass (name : String) (style : Style)
  | assignClass (targets : List String) (name : String)

/-! ## Reading -/

/-- The mention in a field. -/
def mentionOf (t : Tree) (field : String) : Reading Fallacy Mention := do
  let m ← t.needGroup field
  if m.has "terminal" then return .terminal
  else return .named (← m.needText "id") (m.filled? "css_class")

/-- The statements of state diagrams, where `body` reads those inside a composite state. -/
def statements (body : List Tree → Reading Fallacy (List Statement)) : Shapes Fallacy Statement :=
  .ofList
    ([(["composite"], fun t => do
        let c ← t.needGroup "composite"
        return .composite (← c.needText "id") (c.string? "label") (← body (c.list "body"))),
      (["region_break"], fun _ => return .regionBreak),
      (["stereotyped"], fun t => do
        let s ← t.needGroup "stereotyped"
        let word ← s.needText "stereotype"
        let kind ← orComplain (StateKind.ofStereotype? word) s.span.offset
          (.unknownStereotype word)
        return .declare { id := ← s.needText "id", kind }),
      (["declaration"], fun t => do
        let s ← t.needGroup "declaration"
        return .declare
          { id := ← s.needText "id"
            label := s.string? "label"
            descriptions := (s.filled? "text").toList }),
      (["note"], fun t => do
        let n ← t.needGroup "note"
        let side ← n.needText "position"
        let position :=
          if "left".toList.isPrefixOf side.toList then NotePosition.leftOf else .rightOf
        return .note ⟨← n.needText "id", position, (n.filled? "text").getD ""⟩),
      (["direction"], fun t => do
        match Direction.ofWord (← t.needText "direction") with
        | .ok direction => return .direction direction
        | .error word => complain t.span.offset (.unknownDirection word)),
      (["class_def"], fun t => do
        let d ← t.needGroup "class_def"
        let text ← d.needText "style"
        let style ← orComplain (Style.ofText? text) d.span.offset (.malformedStyle text)
        return .defineClass (← d.needText "name") style),
      (["class_statement"], fun t => do
        let s ← t.needGroup "class_statement"
        return .assignClass ((s.getAll "target_id").map Node.text) (← s.needText "name")),
      (["transition"], fun t => do
        let s ← t.needGroup "transition"
        return .transition (← mentionOf s "from") (← mentionOf s "to") (s.filled? "label")),
      (["description"], fun t => do
        let s ← t.needGroup "description"
        return .declare { id := ← s.needText "id", descriptions := [← s.needText "text"] }),
      (["reference"], fun t => do return .reference (← mentionOf t "reference"))] ++
      Captions.shapes.accessibleShapes .accessible)

/-- Reads statements inside at most `depth` composite states; deeper ones are left out. -/
def readBody : Nat → List Tree → Reading Fallacy (List Statement)
  | 0, _ => .ok []
  | depth + 1, trees => (statements (readBody depth)).readAll trees

/-! ## Putting statements into a diagram -/

/-- The diagram as far as the statements before have made it, and the region that they stand in. -/
structure Scope where
  diagram : Diagram
  region : Nat := 0
deriving DecidableEq, Inhabited

namespace Scope

/-- The scope with another diagram. -/
def onDiagram (s : Scope) (change : Diagram → Diagram) : Scope :=
  { s with diagram := change s.diagram }

/-- The scope inside `parent` after the declaration of a state, which is put there if it is new. -/
def declare (parent : Option String) (s : Scope) (state : State) : Scope :=
  let placed :=
    if s.diagram.hasState state.id || parent.isNone then state
    else { state with parent, region := s.region }
  s.onDiagram (·.addState placed)

/-- The id that a mention inside `parent` stands for, and the scope after it. -/
def resolve (parent : Option String) (s : Scope) (m : Mention) (source : Bool) :
    String × Scope :=
  match m with
  | .terminal =>
    let id := terminalId parent source
    (id, s.declare parent { id, kind := if source then .start else .finish })
  | .named id class? =>
    let s := s.declare parent { id := id }
    match class? with
    | some name => (id, s.onDiagram (·.assignClass id name))
    | none => (id, s)

/-- The number of regions of a composite state with these statements. -/
def regions (body : List Statement) : Nat :=
  1 + body.countP fun
    | .regionBreak => true
    | _ => false

mutual

/-- The scope inside `parent` after a statement. -/
def apply (parent : Option String) (s : Scope) : Statement → Scope
  | .accessible caption => s.onDiagram fun d => { d with captions := d.captions.set caption }
  | .direction d => if parent.isNone then s.onDiagram ({ · with direction := d }) else s
  | .composite id label body =>
    let s := s.declare parent { id, kind := .composite (regions body), label }
    { s with diagram := (applyAll (some id) ⟨s.diagram, 0⟩ body).diagram }
  | .regionBreak => { s with region := s.region + 1 }
  | .declare state => s.declare parent state
  | .transition source target label =>
    let (source, s) := s.resolve parent source true
    let (target, s) := s.resolve parent target false
    s.onDiagram (·.addTransition { source := source, target, label })
  | .reference m => (s.resolve parent m true).2
  | .note n => s.onDiagram (·.addNote n)
  | .defineClass name style => s.onDiagram (·.defineClass name style)
  | .assignClass targets name => s.onDiagram (targets.foldl (·.assignClass · name))

/-- The scope inside `parent` after statements. -/
def applyAll (parent : Option String) (s : Scope) : List Statement → Scope
  | [] => s
  | statement :: rest => applyAll parent (apply parent s statement) rest

end

end Scope

/-- The state diagram of statements. -/
def Diagram.ofStatements (body : List Statement) : Diagram :=
  (Scope.applyAll none { diagram := {} } body).diagram

/-- Reads a state diagram from the syntax tree of its document. -/
def read (t : Tree) : Reading Fallacy Diagram := do
  return .ofStatements (← readBody t.height (t.list "statements"))

end DiagramText.StateDiagram
