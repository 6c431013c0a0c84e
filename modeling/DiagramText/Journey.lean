import DiagramText.Captions
import DiagramText.Issue
import DiagramText.Peg.Grammar
import DiagramText.Peg.Lexeme

/-!
# User journeys

A journey is a list of tasks, each with a score from one to five and the actors who take part. A task
belongs to the last section that was opened before it.
-/

namespace DiagramText.Journey

/-- A task of a journey; `inSection` is the place of its section among the sections. -/
structure Task where
  name : String
  score : Nat
  actors : List String
  inSection : Option Nat
deriving DecidableEq, Inhabited

/-- Whether a score is one of those that tasks may have. -/
def isScore (n : Nat) : Bool := 1 ≤ n && n ≤ 5

/-- A user journey. -/
structure Trip where
  captions : Captions := {}
  sections : List String := []
  tasks : List Task := []
deriving DecidableEq, Inhabited

namespace Trip

/-- The place of the section that is open. -/
def openSection? (j : Trip) : Option Nat :=
  if j.sections.isEmpty then none else some (j.sections.length - 1)

/-- The journey with one more section. -/
def addSection (j : Trip) (name : String) : Trip := { j with sections := j.sections ++ [name] }

/-- The journey with one more task, in the open section. -/
def addTask (j : Trip) (name : String) (score : Nat) (actors : List String) : Trip :=
  { j with tasks := j.tasks ++ [⟨name, score, actors, j.openSection?⟩] }

/-- The tasks in the sections of this name. -/
def tasksIn (j : Trip) (name : String) : List Task :=
  j.tasks.filter fun task => (task.inSection.bind (j.sections[·]?)) == some name

/-- The actors, in the order in which they first take part. -/
def actors (j : Trip) : List String := (j.tasks.flatMap Task.actors).eraseDups

/-- The number of tasks. -/
def entityCount (j : Trip) : Nat := j.tasks.length

/-- What is wrong with the journey. -/
def issues (j : Trip) : List Issue :=
  Issue.ofCount j.tasks.length ++
    j.tasks.filterMap fun task =>
      if isScore task.score then none
      else some (.invalidEntity task.name ("score " ++ toString task.score ++ " outside 1..=5"))

end Trip

instance : Written Task where
  write t :=
    .object [("name", write t.name), ("score", write t.score), ("actors", write t.actors),
      ("section", write t.inSection)]

instance : Written Trip where
  write j :=
    .object (j.captions.fields ++ [("sections", write j.sections), ("tasks", write j.tasks)])

/-! ## Documents -/

section

open Peg

/-- A caption, a section or a task. -/
def statementRule : Rule :=
  .labelled "statement" (.choice
    [title "title",
      .sequence
        [keyword "section", ws1, .capture "section" (text1Until "\r\n" "section name")],
      accessibility "acc_title" "acc_descr",
      .capture "task" (.sequence
        [.capture "name" (text1Until ":\r\n" "task name"), .labelled "':'" (lit ":"), ws,
          .capture "score" (text1Until ":\r\n" "score"),
          .optional (.sequence [lit ":", ws, .capture "actors" restOfLine])])])

/-- The grammar of journeys. -/
def grammar : Grammar where
  name := "journey"
  root :=
    document (keyword "journey") (.capture "statements" (statementLines (.ref "statement")))
  rules := [("statement", statementRule)]

end

/-- What a document can say that no journey shows. -/
inductive Fallacy where
  | noScore (text : String)
deriving DecidableEq

instance : Complaint Fallacy where
  message
    | .noScore text => "score '" ++ text ++ "' must be an integer in 1..=5"

/-- A statement of a document. -/
inductive Statement where
  | caption (c : Caption)
  | openSection (name : String)
  | task (name : String) (score : Nat) (actors : List String)
deriving DecidableEq

/-- The names in a text, which commas separate. -/
def names (text : String) : List String := ((splitOnChar text ',').map trim).filter (· != "")

/-- The statements of journeys. -/
def statements : Shapes Fallacy Statement :=
  .ofList (Captions.shapes .caption ++
    [(["section"], fun t => do return .openSection (← t.needText "section")),
      (["task"], fun t => do
        let task ← t.needGroup "task"
        let text ← task.needText "score"
        let score ←
          orComplain ((Numeral.byte? text).filter isScore) (task.startOf "score") (.noScore text)
        return .task (← task.needText "name") score
          ((task.filled? "actors").elim [] names))])

/-- The journey after a statement. -/
def Trip.apply (j : Trip) : Statement → Trip
  | .caption caption => { j with captions := j.captions.set caption }
  | .openSection name => j.addSection name
  | .task name score actors => j.addTask name score actors

/-- Reads a journey from the syntax tree of its document. -/
def read (t : Tree) : Reading Fallacy Trip := do
  return (← statements.readAll (t.list "statements")).foldl Trip.apply {}

end DiagramText.Journey
