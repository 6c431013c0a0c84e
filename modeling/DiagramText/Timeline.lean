import DiagramText.Captions
import DiagramText.Issue
import DiagramText.Peg.Grammar
import DiagramText.Peg.Lexeme

/-!
# Timelines

A timeline is a list of periods with events. A period belongs to the last section that was opened
before it, and a line that begins with a colon adds events to the last period.
-/

namespace DiagramText.Timeline

/-- A period; `inSection` is the place of its section among the sections. -/
structure Period where
  name : String
  events : List String
  inSection : Option Nat
deriving DecidableEq, Inhabited

/-- A timeline. -/
structure Chronicle where
  captions : Captions := {}
  sections : List String := []
  periods : List Period := []
deriving DecidableEq, Inhabited

namespace Chronicle

/-- The place of the section that is open. -/
def openSection? (c : Chronicle) : Option Nat :=
  if c.sections.isEmpty then none else some (c.sections.length - 1)

/-- The timeline with one more section. -/
def addSection (c : Chronicle) (name : String) : Chronicle :=
  { c with sections := c.sections ++ [name] }

/-- The timeline with one more period, in the open section. -/
def addPeriod (c : Chronicle) (name : String) (events : List String) : Chronicle :=
  { c with periods := c.periods ++ [⟨name, events, c.openSection?⟩] }

/-- The timeline with more events in its last period; none where there is no period. -/
def addEvents? (c : Chronicle) (events : List String) : Option Chronicle :=
  c.periods.getLast?.map fun last =>
    { c with periods := c.periods.dropLast ++ [{ last with events := last.events ++ events }] }

/-- The periods in the sections of this name. -/
def periodsIn (c : Chronicle) (name : String) : List Period :=
  c.periods.filter fun period => (period.inSection.bind (c.sections[·]?)) == some name

/-- The number of events. -/
def eventCount (c : Chronicle) : Nat := (c.periods.map (·.events.length)).foldr (· + ·) 0

/-- The number of periods. -/
def entityCount (c : Chronicle) : Nat := c.periods.length

/-- What is wrong with the timeline. -/
def issues (c : Chronicle) : List Issue := Issue.ofCount c.periods.length

end Chronicle

instance : Written Period where
  write p :=
    .object [("name", write p.name), ("events", write p.events), ("section", write p.inSection)]

instance : Written Chronicle where
  write c :=
    .object (c.captions.fields ++ [("sections", write c.sections), ("periods", write c.periods)])

/-! ## Documents -/

section

open Peg

/-- The events that follow a period, each after a colon. -/
def eventsRule : Rule := many (.sequence [lit ":", .capture "event" (textUntil ":\r\n")])

/-- A caption, a section, more events, or a period. -/
def statementRule : Rule :=
  .labelled "statement" (.choice
    [title "title",
      accessibility "acc_title" "acc_descr",
      .sequence
        [keyword "section", ws1, .capture "section" (text1Until "\r\n" "section name")],
      .sequence
        [.capture "continuation" (lit ":"), .capture "event" (textUntil ":\r\n"), eventsRule],
      .capture "period"
        (.sequence [.capture "name" (text1Until ":\r\n" "time period"), eventsRule])])

/-- The grammar of timelines. -/
def grammar : Grammar where
  name := "timeline"
  root :=
    document (keyword "timeline") (.capture "statements" (statementLines (.ref "statement")))
  rules := [("statement", statementRule)]

end

/-- What a document can say that no timeline shows. -/
inductive Fallacy where
  | noPeriod
deriving DecidableEq

instance : Complaint Fallacy where
  message
    | .noPeriod => "events continue a time period but none was declared"

/-- A statement of a document. -/
inductive Statement where
  | caption (c : Caption)
  | openSection (name : String)
  | period (name : String) (events : List String)
  | events (events : List String)
deriving DecidableEq

/-- The events of a statement; empty ones do not count. -/
def events (t : Tree) : List String :=
  ((t.getAll "event").map fun node => trim node.text).filter (· != "")

/-- The statements of timelines. -/
def statements : Shapes Fallacy Statement :=
  .ofList (Captions.shapes .caption ++
    [(["section"], fun t => do return .openSection (← t.needText "section")),
      (["continuation"], fun t => .ok (.events (events t))),
      (["period"], fun t => do
        let period ← t.needGroup "period"
        return .period (← period.needText "name") (events period))])

/-- The timeline after a statement that starts at an offset. -/
def Chronicle.apply (c : Chronicle) : Nat × Statement → Reading Fallacy Chronicle
  | (_, .caption caption) => .ok { c with captions := c.captions.set caption }
  | (_, .openSection name) => .ok (c.addSection name)
  | (_, .period name events) => .ok (c.addPeriod name events)
  | (offset, .events events) => orComplain (c.addEvents? events) offset .noPeriod

/-- Reads a timeline from the syntax tree of its document. -/
def read (t : Tree) : Reading Fallacy Chronicle := do
  (← statements.readPlaced (t.list "statements")).foldlM Chronicle.apply {}

end DiagramText.Timeline
