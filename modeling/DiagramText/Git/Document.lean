import DiagramText.Git.History
import DiagramText.Peg.Grammar
import DiagramText.Peg.Lexeme
import DiagramText.Text.Alphanumeric

/-!
# Documents of Git histories

Each statement is an operation on the history, carried out in the order of the document.
-/

namespace DiagramText.Git

section

open Peg

/-- The characters of a bare name of a branch. -/
def isBranchChar (c : Char) : Bool :=
  isAlphanumeric c || c == '_' || c == '-' || c == '/' || c == '.'

/-- The name of a branch, which quotes may enclose. -/
def branchNameRule : Rule :=
  .labelled "branch name"
    (.choice
      [quotedString, many1 (.chars (.satisfying isBranchChar "branch name character"))])

/-- An option: its name, a colon and its value. -/
def optionRule (name field : String) (value : Rule) : Rule :=
  .sequence [keyword name, ws, lit ":", ws, .capture field value]

/-- The id of a commit. -/
def idRule : Rule := optionRule "id" "id" quotedString

/-- A tag of a commit. -/
def tagRule : Rule := optionRule "tag" "tag" quotedString

/-- The type of a commit. -/
def typeRule : Rule :=
  optionRule "type" "type"
    (.labelled "commit type"
      (.choice [keyword "NORMAL", keyword "REVERSE", keyword "HIGHLIGHT"]))

/-- Any number of the options. -/
def optionsRule (options : List Rule) : Rule := many (.sequence [ws1, .choice options])

/-- An operation or a caption. -/
def statementRule : Rule :=
  .labelled "statement" (.choice
    [.sequence
      [.capture "cherry_pick" (keyword "cherry-pick"),
        many1 (.sequence
          [ws1, .choice [idRule, optionRule "parent" "parent" quotedString, tagRule]])],
      .sequence
        [.capture "commit" (keyword "commit"),
          optionsRule [idRule, tagRule, typeRule, optionRule "msg" "message" quotedString]],
      .sequence
        [keyword "branch", ws1, .capture "branch" branchNameRule,
          .optional (.sequence [ws1, optionRule "order" "order" integer])],
      .sequence
        [.choice [keyword "checkout", keyword "switch"], ws1,
          .capture "checkout" branchNameRule],
      .sequence
        [keyword "merge", ws1, .capture "merge" branchNameRule,
          optionsRule [idRule, tagRule, typeRule]],
      accessibility "acc_title" "acc_descr"])

/-- The keyword, and perhaps a direction and a colon. -/
def headerRule : Rule :=
  .sequence
    [keyword "gitGraph",
      .optional (.sequence
        [ws,
          .optional (.sequence
            [.capture "direction"
              (.labelled "direction" (.choice [lit "LR", lit "TB", lit "BT"])), ws]),
          lit ":"])]

/-- The grammar of Git histories. -/
def grammar : Grammar where
  name := "gitGraph"
  root := document headerRule (.capture "statements" (statementLines (.ref "statement")))
  rules := [("statement", statementRule)]

end

/-- What a document can say that no history shows. -/
inductive Fallacy where
  | refused (r : Refusal)
  | unknownDirection (word : UnknownWord)
deriving DecidableEq

instance : Complaint Fallacy where
  message
    | .refused r => r.message
    | .unknownDirection word => word.message

/-- A statement of a document. -/
inductive Statement where
  | caption (c : Caption)
  | commit (details : Details)
  | branch (name : String) (order : Option Int)
  | checkout (name : String)
  | merge (name : String) (details : Details)
  | cherryPick (id : String) (parent : Option String) (tags : List String)
deriving DecidableEq

/-- The tags of a commit. -/
def tags (t : Tree) : List String := (t.getAll "tag").map fun node => unquote node.text

/-- What a statement says about a new commit. -/
def details (t : Tree) : Details where
  id := t.string? "id"
  message := t.string? "message"
  type := (t.filled? "type").bind CommitType.ofWord?
  tags := tags t

/-- The statements of Git histories. -/
def statements : Shapes Fallacy Statement :=
  .ofList
    ([(["commit"], fun t => .ok (.commit (details t))),
      (["branch"], fun t => do
        return .branch (← t.needString "branch") (← t.number? Numeral.signed? "order")),
      (["checkout"], fun t => do return .checkout (← t.needString "checkout")),
      (["merge"], fun t => do return .merge (← t.needString "merge") (details t)),
      (["cherry_pick"], fun t => do
        return .cherryPick (← t.needString "id") (t.string? "parent") (tags t))] ++
      Captions.shapes.accessibleShapes .caption)

/-- Carries out a statement. -/
def Operation.perform : Statement → Operation Unit
  | .caption caption => modify fun h => { h with captions := h.captions.set caption }
  | .commit details => discard (commit details)
  | .branch name order => openBranch name order
  | .checkout name => checkout name
  | .merge name details => discard (merge name details)
  | .cherryPick id parent tags => discard (cherryPick id parent tags)

/-- The history after a statement that is not refused. -/
def History.apply (h : History) (s : Statement) : Except Refusal History := ((Operation.perform s).on h).map (·.2)

/-- Carries out a statement that starts at an offset. -/
def History.applyAt (h : History) : Nat × Statement → Reading Fallacy History
  | (offset, statement) =>
    match h.apply statement with
    | .ok h => .ok h
    | .error r => complain offset (.refused r)

/-- The direction that the header gives. -/
def direction (t : Tree) : Reading Fallacy Direction :=
  match t.text? "direction" with
  | none => .ok .leftRight
  | some word =>
    match Direction.ofWord word with
    | .ok direction => .ok direction
    | .error word => complain ((t.token? "direction").elim 0 Token.offset) (.unknownDirection word)

/-- Reads a history from the syntax tree of its document. -/
def read (t : Tree) : Reading Fallacy History := do
  let start : History := { direction := ← direction t }
  (← statements.readPlaced (t.list "statements")).foldlM History.applyAt start

end DiagramText.Git
