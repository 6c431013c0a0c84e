import DiagramText.Captions
import DiagramText.Gantt.Duration
import DiagramText.Issue

/-!
# Gantt plans

A plan lists tasks. A task starts where the one before it ends, at a date, or after other tasks; it
ends after a duration, at a date, or when other tasks start. A task without an id is named by its
place in the list. A task belongs to the last section that was opened before it.
-/

namespace DiagramText.Gantt

/-- A mark on a task. -/
inductive Tag where
  | active | done | crit | milestone
deriving DecidableEq, Inhabited

namespace Tag

/-- The word for a mark. -/
def word : Tag → String
  | active => "active"
  | done => "done"
  | crit => "crit"
  | milestone => "milestone"

/-- The mark with a word. -/
def ofWord? : String → Option Tag
  | "active" => some active
  | "done" => some done
  | "crit" => some crit
  | "milestone" => some milestone
  | _ => none

end Tag

/-- When a task starts. -/
inductive Start where
  | previous
  | date (text : String)
  | after (tasks : List String)
deriving DecidableEq, Inhabited

/-- When a task ends. -/
inductive Finish where
  | duration (d : Duration)
  | date (text : String)
  | until (tasks : List String)

/-- A task; `inSection` is the place of its section among the sections. -/
structure Task where
  id : String
  name : String
  inSection : Option Nat
  tags : List Tag
  start : Start
  finish : Finish

namespace Task

/-- Whether the task has a mark. -/
def hasTag (t : Task) (tag : Tag) : Bool := t.tags.contains tag

/-- The tasks that the task refers to. -/
def dependencies (t : Task) : List String :=
  (match t.start with
    | .after tasks => tasks
    | _ => []) ++
    match t.finish with
    | .until tasks => tasks
    | _ => []

/-- The duration of the task, if it has one. -/
def duration? (t : Task) : Option Duration :=
  match t.finish with
  | .duration d => some d
  | _ => none

end Task

/-- What happens on a click. -/
inductive Action where
  | href (url : String)
  | call (function : String) (args : Option String)
deriving DecidableEq, Inhabited

/-- What happens on a click on some tasks. -/
structure Click where
  tasks : List String
  action : Action
deriving DecidableEq, Inhabited

/-- A plan. -/
structure Plan where
  captions : Captions := {}
  dateFormat : String := "YYYY-MM-DD"
  axisFormat : Option String := none
  tickInterval : Option String := none
  excludes : List String := []
  includes : List String := []
  todayMarker : Option String := none
  weekday : Option String := none
  inclusiveEndDates : Bool := false
  topAxis : Bool := false
  sections : List String := []
  tasks : List Task := []
  clicks : List Click := []

namespace Plan

/-- The place of the section that is open. -/
def openSection? (p : Plan) : Option Nat :=
  if p.sections.isEmpty then none else some (p.sections.length - 1)

/-- The plan with one more section. -/
def addSection (p : Plan) (name : String) : Plan := { p with sections := p.sections ++ [name] }

/-- The id of the next task if it does not give one. -/
def nextId (p : Plan) : String := "task" ++ toString (p.tasks.length + 1)

/-- The next task of the plan, in the open section. -/
def task (p : Plan) (id : Option String) (name : String) (tags : List Tag) (start : Start)
    (finish : Finish) : Task :=
  ⟨id.getD p.nextId, name, p.openSection?, tags, start, finish⟩

/-- The plan with one more task. -/
def addTask (p : Plan) (t : Task) : Plan := { p with tasks := p.tasks ++ [t] }

/-- The first task with an id. -/
def task? (p : Plan) (id : String) : Option Task := p.tasks.find? (·.id == id)

/-- Whether there is a task with the id. -/
def hasTask (p : Plan) (id : String) : Bool := (p.task? id).isSome

/-- The tasks in the sections of this name. -/
def tasksIn (p : Plan) (name : String) : List Task :=
  p.tasks.filter fun task => (task.inSection.bind (p.sections[·]?)) == some name

/-- The plan with one more click. -/
def addClick (p : Plan) (c : Click) : Plan := { p with clicks := p.clicks ++ [c] }

/-- The number of tasks. -/
def entityCount (p : Plan) : Nat := p.tasks.length

/-- What is wrong with the tasks, where those with the ids `seen` came before. -/
def taskIssues (p : Plan) (seen : List String) : List Task → List Issue
  | [] => []
  | task :: tasks =>
    (if seen.contains task.id then [.duplicateId task.id] else []) ++
      ((task.dependencies.filter (!p.hasTask ·)).map
        (Issue.danglingReference ("task '" ++ task.id ++ "'"))) ++
      p.taskIssues (task.id :: seen) tasks

/-- What is wrong with the plan. -/
def issues (p : Plan) : List Issue :=
  Issue.ofCount p.tasks.length ++ p.taskIssues [] p.tasks ++
    p.clicks.flatMap fun click =>
      (click.tasks.filter (!p.hasTask ·)).map (Issue.danglingReference "click")

end Plan

instance : Written Tag := ⟨fun t => .text t.word⟩

instance : Written Start where
  write
    | .previous => .object [("kind", .text "previous")]
    | .date text => .object [("kind", .text "date"), ("value", write text)]
    | .after tasks => .object [("kind", .text "after"), ("value", write tasks)]

instance : Written Finish where
  write
    | .duration d => .object [("kind", .text "duration"), ("value", write d)]
    | .date text => .object [("kind", .text "date"), ("value", write text)]
    | .until tasks => .object [("kind", .text "until"), ("value", write tasks)]

instance : Written Task where
  write t :=
    .object [("id", write t.id), ("name", write t.name), ("section", write t.inSection),
      ("tags", write t.tags), ("start", write t.start), ("end", write t.finish)]

instance : Written Action where
  write
    | .href url => .object [("kind", .text "href"), ("url", write url)]
    | .call function args =>
      .object [("kind", .text "call"), ("function", write function), ("args", write args)]

instance : Written Click where
  write c := .object [("tasks", write c.tasks), ("action", write c.action)]

instance : Written Plan where
  write p :=
    .object (p.captions.fields ++
      [("date_format", write p.dateFormat), ("axis_format", write p.axisFormat),
        ("tick_interval", write p.tickInterval), ("excludes", write p.excludes),
        ("includes", write p.includes), ("today_marker", write p.todayMarker),
        ("weekday", write p.weekday), ("inclusive_end_dates", write p.inclusiveEndDates),
        ("top_axis", write p.topAxis), ("sections", write p.sections), ("tasks", write p.tasks),
        ("clicks", write p.clicks)])

end DiagramText.Gantt
