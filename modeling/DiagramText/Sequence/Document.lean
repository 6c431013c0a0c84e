import DiagramText.Peg.Grammar
import DiagramText.Peg.Lexeme
import DiagramText.Sequence.Diagram
import DiagramText.Text.Alphanumeric

/-!
# Documents of sequence diagrams

Statements, of which blocks hold further statements. Putting statements into a diagram turns the
nesting into marks: a start, a mark before every further branch, and an end, all with the number of
the blocks around them.
-/

namespace DiagramText.Sequence

section

open Peg

/-- The characters of the id of a participant. -/
def isParticipantChar (c : Char) : Bool := isAlphanumeric c || c == '_' || c == '.'

/-- The id of a participant. -/
def participantRule : Rule :=
  .labelled "participant"
    (many1 (.chars (.satisfying isParticipantChar "participant character")))

/-- The arrow of a message. -/
def arrowRule : Rule :=
  .labelled "message arrow" (.choice
    (["<<-->>", "<<->>", "-->>", "->>", "--x", "-x", "--)", "-)", "-->", "->"].map lit))

/-- Statements. -/
def bodyRule : Rule := statementLines (.ref "statement")

/-- The keyword of a block or a branch, its label, and its statements. -/
def partRule (field : String) (words : List String) : List Rule :=
  [.capture field (.choice (words.map keyword)), ws, .capture "label" restOfLine, eol,
    .capture "body" bodyRule]

/-- A block with its branches. -/
def blockRule : Rule :=
  .capture "block" (.sequence
    (partRule "block_kind" ["loop", "alt", "opt", "par", "critical", "break", "rect"] ++
      [.capture "branches"
        (many (.sequence (ws :: partRule "branch_kind" ["else", "and", "option"]))),
        ws, .labelled "'end'" (keyword "end")]))

/-- A note. -/
def noteRule : Rule :=
  .capture "note" (.sequence
    [keywordAnyCase "note", ws1,
      .capture "placement" (.choice
        [.sequence [keyword "left", ws1, keyword "of"],
          .sequence [keyword "right", ws1, keyword "of"], keyword "over"]),
      ws1, .capture "id" participantRule,
      .optional (.sequence [ws, lit ",", ws, .capture "id" participantRule]),
      ws, lit ":", ws, .capture "text" restOfLine])

/-- The wish to number messages, or not to. -/
def numberingRule : Rule :=
  .capture "autonumber" (.sequence
    [keyword "autonumber",
      .optional (.sequence
        [ws1,
          .choice
            [.capture "off" (keyword "off"),
              .sequence
                [.capture "start" integer,
                  .optional (.sequence [ws1, .capture "step" integer])]]])])

/-- A message. -/
def messageRule : Rule :=
  .capture "message" (.sequence
    [.capture "from" participantRule, ws, .capture "arrow" arrowRule, ws,
      .optional (.capture "activation" (oneOf "+-")), ws, .capture "to" participantRule, ws,
      .optional (.sequence [lit ":", ws, .capture "text" restOfLine])])

/-- Any statement. -/
def statementRule : Rule :=
  .labelled "statement" (.choice
    [.capture "participant" (.sequence
      [.capture "participant_kind" (.choice [keyword "participant", keyword "actor"]), ws1,
        .capture "id" participantRule,
        .optional (.sequence
          [ws1, keyword "as", ws1, .capture "alias" (text1Until "\r\n" "alias")])]),
      .capture "activate" (.sequence [keyword "activate", ws1, .capture "id" participantRule]),
      .capture "deactivate"
        (.sequence [keyword "deactivate", ws1, .capture "id" participantRule]),
      noteRule,
      blockRule,
      numberingRule,
      title "title",
      accessibility "acc_title" "acc_descr",
      messageRule])

/-- The grammar of sequence diagrams. -/
def grammar : Grammar where
  name := "sequence"
  root := document (keyword "sequenceDiagram") (.capture "statements" bodyRule)
  rules := [("statement", statementRule)]

end

/-- What a document can say that no sequence diagram shows. -/
inductive Fallacy where
  | unknownBlock (word : String)
  | unknownArrow (token : String)
deriving DecidableEq

instance : Complaint Fallacy where
  message
    | .unknownBlock word => "unknown block '" ++ word ++ "'"
    | .unknownArrow token => "unknown arrow '" ++ token ++ "'"

/-- What a message does to an activation: it starts one of its target or ends one of its source. -/
inductive Activation where
  | start | stop
deriving DecidableEq, Inhabited

mutual

/-- A statement of a document. -/
inductive Statement where
  | caption (c : Caption)
  | participant (p : Participant)
  | message (m : Message) (activation : Option Activation)
  | activate (id : String)
  | deactivate (id : String)
  | note (n : Note)
  | block (kind : BlockKind) (label : String) (body : List Statement) (branches : List Branch)
  | numbering (n : Option Numbering)

/-- A further branch of a block. -/
inductive Branch where
  | mk (kind : BlockKind) (label : String) (body : List Statement)

end

/-! ## Reading -/

/-- The kind of block that a field names. -/
def blockKind (t : Tree) (field : String) : Reading Fallacy BlockKind := do
  let word ← t.needText field
  orComplain (BlockKind.ofWord? word) t.span.offset (.unknownBlock word)

/-- Where a note stands, from the words that say it. -/
def placement (words : String) : Placement :=
  if "left".toList.isPrefixOf words.toList then .leftOf
  else if "right".toList.isPrefixOf words.toList then .rightOf
  else .over

/-- What a sign on an arrow does to activations. -/
def activation? : String → Option Activation
  | "+" => some .start
  | "-" => some .stop
  | _ => none

/-- How a statement numbers messages. -/
def numbering (t : Tree) : Reading Fallacy (Option Numbering) :=
  match t.tree? "autonumber" with
  | none => .ok (some {})
  | some n =>
    if n.has "off" then .ok none
    else do
      let start ← n.number? Numeral.word? "start"
      let step ← n.number? Numeral.word? "step"
      return some ⟨start.elim 1 UInt32.ofNat, step.elim 1 UInt32.ofNat⟩

/-- The statements of sequence diagrams, where `body` reads those inside a block. -/
def statements (body : List Tree → Reading Fallacy (List Statement)) : Shapes Fallacy Statement :=
  .ofList
    ([(["participant"], fun t => do
        let p ← t.needGroup "participant"
        let id ← p.needText "id"
        let role := if (← p.needText "participant_kind") = "actor" then Role.actor else .participant
        return .participant ⟨id, (p.filled? "alias").getD id, role⟩),
      (["message"], fun t => do
        let m ← t.needGroup "message"
        let token ← m.needText "arrow"
        let arrow ← orComplain (Arrow.ofToken? token) m.span.offset (.unknownArrow token)
        let message : Message :=
          { source := ← m.needText "from"
            target := ← m.needText "to"
            label := (m.filled? "text").getD ""
            arrow }
        return .message message ((m.filled? "activation").bind activation?)),
      (["activate"], fun t => do return .activate (← (← t.needGroup "activate").needText "id")),
      (["deactivate"], fun t => do
        return .deactivate (← (← t.needGroup "deactivate").needText "id")),
      (["note"], fun t => do
        let note ← t.needGroup "note"
        return .note
          { placement := placement (← note.needText "placement")
            participants := (note.getAll "id").map Node.text
            text := (note.filled? "text").getD "" }),
      (["block"], fun t => do
        let block ← t.needGroup "block"
        let branches ← (block.list "branches").mapM fun branch => do
          return .mk (← blockKind branch "branch_kind") ((branch.filled? "label").getD "")
            (← body (branch.list "body"))
        return .block (← blockKind block "block_kind") ((block.filled? "label").getD "")
          (← body (block.list "body")) branches),
      (["autonumber"], fun t => do return .numbering (← numbering t))] ++
      Captions.shapes .caption)

/-- Reads statements inside at most `depth` blocks; deeper ones are left out. -/
def readBody : Nat → List Tree → Reading Fallacy (List Statement)
  | 0, _ => .ok []
  | depth + 1, trees => (statements (readBody depth)).readAll trees

/-! ## Putting statements into a diagram -/

namespace Diagram

mutual

/-- The diagram after a statement inside `depth` blocks. -/
def apply (depth : Nat) (d : Diagram) : Statement → Diagram
  | .caption caption => { d with captions := d.captions.set caption }
  | .participant p => d.addParticipant p
  | .message m activation =>
    let d := d.addMessage { m with depth }
    match activation with
    | none => d
    | some .start => d.addEvent (.activate m.target)
    | some .stop => d.addEvent (.deactivate m.source)
  | .activate id => d.addEvent (.activate id)
  | .deactivate id => d.addEvent (.deactivate id)
  | .note n => d.addEvent (.note n)
  | .block kind label body branches =>
    let d := applyAll (depth + 1) (d.addEvent (.blockStart kind label depth)) body
    (applyBranches depth d branches).addEvent (.blockEnd depth)
  | .numbering n => d.setNumbering n

/-- The diagram after statements inside `depth` blocks. -/
def applyAll (depth : Nat) (d : Diagram) : List Statement → Diagram
  | [] => d
  | s :: rest => applyAll depth (apply depth d s) rest

/-- The diagram after the further branches of a block inside `depth` blocks. -/
def applyBranches (depth : Nat) (d : Diagram) : List Branch → Diagram
  | [] => d
  | .mk kind label body :: rest =>
    applyBranches depth
      (applyAll (depth + 1) (d.addEvent (.blockBranch kind label depth)) body) rest

end

end Diagram

/-- Reads a sequence diagram from the syntax tree of its document. -/
def read (t : Tree) : Reading Fallacy Diagram := do
  return Diagram.applyAll 0 {} (← readBody t.height (t.list "statements"))

end DiagramText.Sequence
