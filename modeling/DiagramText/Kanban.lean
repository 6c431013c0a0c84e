import DiagramText.Issue
import DiagramText.Peg.Grammar
import DiagramText.Peg.Lexeme
import DiagramText.Reading
import DiagramText.Text.Separated
import DiagramText.Value

/-!
# Kanban boards

A board has columns with cards. Indentation tells them apart: a line that is indented no further than
the first one is a column, every other line a card of the column before it. A line without an id
gets one from its place among the lines. The metadata of a card may set its further properties, and
even its label.
-/

namespace DiagramText.Kanban

/-- How urgent a card is. -/
inductive Priority where
  | veryLow | low | high | veryHigh
deriving DecidableEq, Inhabited

/-- The priority that a text names, in any case of letters and with any blanks between words. -/
def Priority.ofText? (text : String) : Option Priority :=
  match (words text).map fun word => String.ofList (word.toList.map Char.toLower) with
  | ["very", "high"] => some veryHigh
  | ["high"] => some high
  | ["low"] => some low
  | ["very", "low"] => some veryLow
  | _ => none

/-- A card. -/
structure Card where
  id : String
  label : String
  assigned : Option String := none
  ticket : Option String := none
  priority : Option Priority := none
  icon : Option String := none
  metadata : List (String × String) := []
deriving DecidableEq, Inhabited

/-- A column with its cards. -/
structure Column where
  id : String
  label : String
  cards : List Card := []
deriving DecidableEq, Inhabited

/-- A board. -/
structure Board where
  columns : List Column := []
deriving DecidableEq, Inhabited

namespace Board

/-- The board with one more column. -/
def addColumn (b : Board) (id label : String) : Board := ⟨b.columns ++ [{ id := id, label }]⟩

/-- The board with one more card in its last column; none where there is no column. -/
def addCard? (b : Board) (card : Card) : Option Board :=
  b.columns.getLast?.map fun last =>
    ⟨b.columns.dropLast ++ [{ last with cards := last.cards ++ [card] }]⟩

/-- The column with an id. -/
def column? (b : Board) (id : String) : Option Column := b.columns.find? (·.id == id)

/-- All cards, column by column. -/
def cards (b : Board) : List Card := b.columns.flatMap Column.cards

/-- The card with an id. -/
def card? (b : Board) (id : String) : Option Card := b.cards.find? (·.id == id)

/-- The ids of all columns and then of all cards. -/
def ids (b : Board) : List String := b.columns.map Column.id ++ b.cards.map Card.id

/-- Whether a column or a card has the id. -/
def hasId (b : Board) (id : String) : Bool := b.ids.contains id

/-- The number of columns and cards. -/
def entityCount (b : Board) : Nat := b.columns.length + b.cards.length

/-- What is wrong with the board. -/
def issues (b : Board) : List Issue := Issue.ofCount b.columns.length ++ Issue.repeated b.ids

end Board

instance : Written Priority where
  write
    | .veryLow => .text "VeryLow"
    | .low => .text "Low"
    | .high => .text "High"
    | .veryHigh => .text "VeryHigh"

instance : Written Card where
  write c :=
    .object [("id", write c.id), ("label", write c.label), ("assigned", write c.assigned),
      ("ticket", write c.ticket), ("priority", write c.priority), ("icon", write c.icon),
      ("metadata", write c.metadata)]

instance : Written Column where
  write c := .object [("id", write c.id), ("label", write c.label), ("cards", write c.cards)]

instance : Written Board where
  write b := .object [("columns", write b.columns)]

/-! ## Documents -/

section

open Peg

/-- A column or a card: a label in brackets, which an id may precede, or a bare text; and metadata in
braces. -/
def nodeRule : Rule :=
  .labelled "column or card" (.capture "node" (.sequence
    [.choice
      [.sequence
        [.optional (.capture "id" word), lit "[", .capture "label" (textUntil "]\r\n"), lit "]"],
        .capture "text" (text1Until "@\r\n" "card text")],
      .optional (.sequence
        [ws, lit "@\x7b", .capture "metadata" (textUntil "\x7d\r\n"),
          .labelled "'\x7d'" (lit "\x7d")])]))

/-- The grammar of boards. -/
def grammar : Grammar where
  name := "kanban"
  root :=
    document (keyword "kanban")
      (.capture "lines"
        (many (.choice [blankLine, .sequence [.capture "indent" ws, .ref "node", eol]])))
  rules := [("node", nodeRule)]

end

/-- What a document can say that no board shows. -/
inductive Fallacy where
  | malformedMetadata (text : String)
  | unknownPriority (text : String)
  | repeatedId (id : String)
  | columnMetadata (id : String)
deriving DecidableEq

instance : Complaint Fallacy where
  message
    | .malformedMetadata text => "malformed metadata '" ++ text ++ "'"
    | .unknownPriority text => "unknown priority '" ++ text ++ "'"
    | .repeatedId id => "id '" ++ id ++ "' is used more than once"
    | .columnMetadata id => "column '" ++ id ++ "' cannot carry metadata"

/-- What a line says. -/
structure Entry where
  id : Option String
  label : String
  metadata : List (String × String)
deriving DecidableEq, Inhabited

/-- The lines of boards. -/
def entries : Shapes Fallacy Entry :=
  .ofList
    [(["node"], fun t => do
      let node ← t.needGroup "node"
      let metadata ← match node.filled? "metadata" with
        | some raw =>
          orComplain (keyValues? raw) (node.startOf "metadata") (.malformedMetadata raw)
        | none => .ok []
      return { id := node.filled? "id"
               label := (node.string? "label").getD ((node.filled? "text").getD "")
               metadata })]

/-- A card with one more property from its metadata. -/
def Card.set (card : Card) (offset : Nat) : String × String → Reading Fallacy Card
  | ("assigned", value) => .ok { card with assigned := some value }
  | ("ticket", value) => .ok { card with ticket := some value }
  | ("icon", value) => .ok { card with icon := some value }
  | ("label", value) => .ok { card with label := value }
  | ("priority", value) => do
    return { card with
      priority := some (← orComplain (Priority.ofText? value) offset (.unknownPriority value)) }
  | _ => .ok card

/-- The card that a line says. -/
def Entry.card (e : Entry) (id : String) (offset : Nat) : Reading Fallacy Card := do
  let blank : Card := { id, label := e.label }
  let card ← e.metadata.foldlM (fun card property => Card.set card offset property) blank
  return { card with metadata := e.metadata }

/-- A line with its place in the document, its number and its indentation. -/
structure Line where
  offset : Nat
  number : Nat
  indent : Nat
  entry : Entry
deriving DecidableEq, Inhabited

/-- Whether a line is a column, given the indentation of the first line before it. -/
def Line.isColumn (line : Line) (first : Option Nat) : Bool := first.all (line.indent ≤ ·)

/-- The id that a line gives or gets. -/
def Line.id (line : Line) (first : Option Nat) : String :=
  line.entry.id.getD
    ((if line.isColumn first then "column-" else "card-") ++ toString line.number)

/-- The board after a line; with it goes the indentation of the first line. -/
def Board.apply : Option Nat × Board → Line → Reading Fallacy (Option Nat × Board)
  | (first, b), line =>
    let id := line.id first
    if b.hasId id then complain line.offset (.repeatedId id)
    else if line.isColumn first then
      if line.entry.metadata.isEmpty then
        .ok (some (first.getD line.indent), b.addColumn id line.entry.label)
      else complain line.offset (.columnMetadata id)
    else do
      let card ← line.entry.card id line.offset
      return (first, (b.addCard? card).getD b)

/-- Reads a board from the syntax tree of its document. -/
def read (t : Tree) : Reading Fallacy Board := do
  let trees := t.list "lines"
  let lines := (trees.zip (← entries.readAll trees)).mapIdx fun number (tree, entry) =>
    { offset := tree.span.offset, number
      indent := (tree.text? "indent").elim 0 String.length, entry : Line }
  return (← lines.foldlM Board.apply (none, {})).2

end DiagramText.Kanban
