import DiagramText.Gantt.Plan
import DiagramText.Peg.Grammar
import DiagramText.Peg.Lexeme

/-!
# Documents of Gantt plans

The data of a task are items between commas: first its marks, then up to three items of which the
last is the end, the one before it the start and the first of three the id. Tasks may refer to tasks
that follow, so references are checked when all tasks are known.
-/

namespace DiagramText.Gantt

section

open Peg

/-- A setting: its name and a text up to the end of the line. -/
def settingRule (name field : String) : Rule :=
  .sequence [keyword name, ws1, .capture field (text1Until "\r\n" "value")]

/-- What happens on a click on some tasks. -/
def clickRule : Rule :=
  .capture "click" (.sequence
    [keyword "click", ws1, .capture "target" word,
      many (.sequence [ws, lit ",", ws, .capture "target" word]), ws1,
      .labelled "'href' or 'call'" (.choice
        [.sequence [keyword "href", ws1, .capture "url" quotedString],
          .sequence
            [keyword "call", ws1, .capture "callback" (text1Until "(\r\n" "callback"),
              .optional (.sequence
                [lit "(", .capture "args" (textUntil ")\r\n"), lit ")"])]])])

/-- A caption, a setting, a section, a click or a task. -/
def statementRule : Rule :=
  .labelled "statement" (.choice
    [title "title",
      settingRule "dateFormat" "date_format",
      settingRule "axisFormat" "axis_format",
      settingRule "tickInterval" "tick_interval",
      settingRule "excludes" "excludes",
      settingRule "includes" "includes",
      settingRule "todayMarker" "today_marker",
      settingRule "weekday" "weekday",
      .capture "inclusive_end_dates" (keyword "inclusiveEndDates"),
      .capture "top_axis" (keyword "topAxis"),
      accessibility "acc_title" "acc_descr",
      .sequence
        [keyword "section", ws1, .capture "section" (text1Until "\r\n" "section name")],
      clickRule,
      .capture "task" (.sequence
        [.capture "name" (text1Until ":\r\n" "task name"), .labelled "':'" (lit ":"), ws,
          .capture "data" (text1Until "\r\n" "task data")])])

/-- The grammar of Gantt plans. -/
def grammar : Grammar where
  name := "gantt"
  root := document (keyword "gantt") (.capture "statements" (statementLines (.ref "statement")))
  rules := [("statement", statementRule)]

end

/-- What a document can say that no plan shows. -/
inductive Fallacy where
  | emptyItem (data : String)
  | wrongCount (data : String)
  | unknownTask (task missing : String)
deriving DecidableEq

instance : Complaint Fallacy where
  message
    | .emptyItem data => "empty item in task data '" ++ data ++ "'"
    | .wrongCount data =>
      "task data '" ++ data ++ "' must hold one to three items after its tags"
    | .unknownTask task missing =>
      "task '" ++ task ++ "' refers to unknown task '" ++ missing ++ "'"

/-- A task as its document gives it. -/
structure Entry where
  id : Option String
  name : String
  tags : List Tag
  start : Start
  finish : Finish

/-- A setting of the whole plan. -/
inductive Setting where
  | dateFormat (text : String)
  | axisFormat (text : String)
  | tickInterval (text : String)
  | excludes (days : List String)
  | includes (days : List String)
  | todayMarker (text : String)
  | weekday (text : String)
  | inclusiveEndDates
  | topAxis
deriving DecidableEq

/-- A statement of a document. -/
inductive Statement where
  | caption (c : Caption)
  | setting (s : Setting)
  | openSection (name : String)
  | click (c : Click)
  | task (e : Entry)

/-- The items of a text between commas and blanks. -/
def days (text : String) : List String :=
  ((Chars.splitBy (fun c => c == ',' || isBlank c) text.toList).filter (!·.isEmpty)).map
    String.ofList

/-- The ids that follow a word and a blank. -/
def references? (item word : String) : Option (List String) :=
  match Chars.dropStart? word.toList item.toList with
  | some (c :: rest) =>
    if isBlank c then some ((Chars.words rest).map String.ofList) else none
  | _ => none

/-- The start that an item gives: other tasks, or else a date. -/
def Start.ofItem (item : String) : Start :=
  match references? item "after" with
  | some tasks => .after tasks
  | none => .date item

/-- The end that an item gives: other tasks, a duration, or else a date. -/
def Finish.ofItem (item : String) : Finish :=
  match references? item "until" with
  | some tasks => .until tasks
  | none =>
    match Duration.ofText? item with
    | some d => .duration d
    | none => .date item

/-- The marks that the items begin with, and the items after them. -/
def splitTags : List String → List Tag × List String
  | [] => ([], [])
  | item :: items =>
    match Tag.ofWord? item with
    | some tag =>
      let (tags, rest) := splitTags items
      (tag :: tags, rest)
    | none => ([], item :: items)

/-- The id, the start and the end that the items after the marks give. -/
def schedule? : List String → Option (Option String × Start × Finish)
  | [finish] => some (none, .previous, .ofItem finish)
  | [start, finish] => some (none, .ofItem start, .ofItem finish)
  | [id, start, finish] => some (some id, .ofItem start, .ofItem finish)
  | _ => none

/-- The task that a statement gives. -/
def entry (task : Tree) : Reading Fallacy Entry := do
  let data ← task.needText "data"
  let items := (splitOnChar data ',').map trim
  if items.any (· == "") then complain (task.startOf "data") (.emptyItem data)
  let (tags, rest) := splitTags items
  let (id, start, finish) ←
    orComplain (schedule? rest) (task.startOf "data") (.wrongCount data)
  return { id, name := ← task.needText "name", tags, start, finish }

/-- What happens on a click. -/
def action (click : Tree) : Reading Fallacy Action :=
  match click.string? "url" with
  | some url => .ok (.href url)
  | none => do return .call (← click.needText "callback") (click.filled? "args")

/-- The statements of Gantt plans. -/
def statements : Shapes Fallacy Statement :=
  let setting (field : String) (wrap : String → Setting) :
      List String × (Tree → Reading Fallacy Statement) :=
    ([field], fun t => do return .setting (wrap (← t.needText field)))
  .ofList (Captions.shapes .caption ++
    [setting "date_format" .dateFormat,
      setting "axis_format" .axisFormat,
      setting "tick_interval" .tickInterval,
      setting "excludes" fun text => .excludes (days text),
      setting "includes" fun text => .includes (days text),
      setting "today_marker" .todayMarker,
      setting "weekday" .weekday,
      (["inclusive_end_dates"], fun _ => .ok (.setting .inclusiveEndDates)),
      (["top_axis"], fun _ => .ok (.setting .topAxis)),
      (["section"], fun t => do return .openSection (← t.needText "section")),
      (["click"], fun t => do
        let click ← t.needGroup "click"
        return .click ⟨(click.getAll "target").map Node.text, ← action click⟩),
      (["task"], fun t => do return .task (← entry (← t.needGroup "task")))])

/-- The plan with a setting. -/
def Plan.set (p : Plan) : Setting → Plan
  | .dateFormat text => { p with dateFormat := text }
  | .axisFormat text => { p with axisFormat := some text }
  | .tickInterval text => { p with tickInterval := some text }
  | .excludes days => { p with excludes := p.excludes ++ days }
  | .includes days => { p with includes := p.includes ++ days }
  | .todayMarker text => { p with todayMarker := some text }
  | .weekday text => { p with weekday := some text }
  | .inclusiveEndDates => { p with inclusiveEndDates := true }
  | .topAxis => { p with topAxis := true }

/-- The plan after a statement. -/
def Plan.apply (p : Plan) : Statement → Plan
  | .caption caption => { p with captions := p.captions.set caption }
  | .setting s => p.set s
  | .openSection name => p.addSection name
  | .click c => p.addClick c
  | .task e => p.addTask (p.task e.id e.name e.tags e.start e.finish)

/-- The offset of a statement that is a task. -/
def taskOffset? : Nat × Statement → Option Nat
  | (offset, .task _) => some offset
  | _ => none

/-- Complains about a task, which starts at an offset, that refers to a task which the plan lacks. -/
def Plan.checkTask (p : Plan) : Task × Nat → Reading Fallacy Unit
  | (task, offset) =>
    match task.dependencies.find? (!p.hasTask ·) with
    | some missing => complain offset (.unknownTask task.id missing)
    | none => .ok ()

/-- Reads a plan from the syntax tree of its document. -/
def read (t : Tree) : Reading Fallacy Plan := do
  let placed ← statements.readPlaced (t.list "statements")
  let plan := (placed.map (·.2)).foldl Plan.apply {}
  (plan.tasks.zip (placed.filterMap taskOffset?)).forM plan.checkTask
  return plan

end DiagramText.Gantt
