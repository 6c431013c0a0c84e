import DiagramText.Proofs.Gantt.TaskLines
import Mathlib.Data.List.Induction

/-!
# Tasks and what they refer to

The tasks of a plan are those that its statements give (`mem_tasks_iff`), in their order and each at its place
(`tasks_at`): under its own id, or a number if it has none, and in the last section that was opened before it. A plan is
read from statements if whatever a task refers to is one of these tasks, be it before or behind (`read_eq_ok_iff`).

Together with what is read from lines this accounts for tasks from their texts to the plan (`tasks_of_documents`).
-/

namespace DiagramText.Gantt

open Peg Reading

/-! ## Tasks of statements -/

/-- The tasks among statements, as they are given. -/
def entries (ss : List Statement) : List Entry :=
  ss.filterMap fun
    | .task e => some e
    | _ => none

/-- The names of the sections that are opened, in their order. -/
def sectionNames (ss : List Statement) : List String :=
  ss.filterMap fun
    | .openSection name => some name
    | _ => none

/-- The task that is given behind some statements: one without an id is named by its number, and all belong to the last
section that was opened. -/
def taskBehind (before : List Statement) (e : Entry) : Task where
  id := e.id.getD ("task" ++ toString ((entries before).length + 1))
  name := e.name
  inSection := if sectionNames before = [] then none else some ((sectionNames before).length - 1)
  tags := e.tags
  start := e.start
  finish := e.finish

/-- Whether statements give the task, somewhere among them. -/
def Gives (ss : List Statement) (task : Task) : Prop :=
  ∃ before e after, ss = before ++ .task e :: after ∧ taskBehind before e = task

/-- The plan of statements, whatever its tasks refer to. -/
def plan (ss : List Statement) : Plan := ss.foldl Plan.apply {}

theorem plan_concat (ss : List Statement) (s : Statement) : plan (ss ++ [s]) = (plan ss).apply s := by
  rw [plan, List.foldl_append]
  rfl

/-- A statement adds no task but the one that it gives, and opens no section but its own. -/
theorem apply_fields (p : Plan) (s : Statement) :
    (p.apply s).sections = p.sections ++ sectionNames [s] ∧
      (p.apply s).tasks = p.tasks ++ (entries [s]).map fun e => p.task e.id e.name e.tags e.start e.finish := by
  cases s with
  | setting setting => cases setting <;> exact ⟨(List.append_nil _).symm, (List.append_nil _).symm⟩
  | task e => exact ⟨(List.append_nil _).symm, rfl⟩
  | openSection name => exact ⟨rfl, (List.append_nil _).symm⟩
  | _ => exact ⟨(List.append_nil _).symm, (List.append_nil _).symm⟩

theorem sections_plan (ss : List Statement) : (plan ss).sections = sectionNames ss := by
  induction ss using List.reverseRecOn with
  | nil => rfl
  | append_singleton ss s ih =>
    rw [plan_concat, (apply_fields _ s).1, ih, sectionNames, sectionNames, ← List.filterMap_append]
    rfl

theorem length_tasks (ss : List Statement) : (plan ss).tasks.length = (entries ss).length := by
  induction ss using List.reverseRecOn with
  | nil => rfl
  | append_singleton ss s ih =>
    rw [plan_concat, (apply_fields _ s).2, List.length_append, List.length_map, ih, ← List.length_append, entries,
      entries, ← List.filterMap_append]
    rfl

/-- The next task of a plan is the one that is given behind its statements. -/
theorem task_plan (ss : List Statement) (e : Entry) :
    (plan ss).task e.id e.name e.tags e.start e.finish = taskBehind ss e := by
  rw [Plan.task, Plan.openSection?, Plan.nextId, sections_plan, length_tasks, taskBehind]
  simp only [List.isEmpty_iff]

theorem tasks_concat (ss : List Statement) (s : Statement) :
    (plan (ss ++ [s])).tasks = (plan ss).tasks ++ (entries [s]).map (taskBehind ss) := by
  rw [plan_concat, (apply_fields _ s).2]
  simp only [task_plan]

theorem tasks_append (ss more : List Statement) : (plan ss).tasks <+: (plan (ss ++ more)).tasks := by
  induction more using List.reverseRecOn with
  | nil => simp
  | append_singleton more s ih =>
    rw [← List.append_assoc, tasks_concat]
    exact ih.trans (List.prefix_append ..)

/-- Each task stands at its place. -/
theorem tasks_at {ss before after : List Statement} {e : Entry} (h : ss = before ++ .task e :: after) :
    (plan ss).tasks[(entries before).length]? = some (taskBehind before e) := by
  have ends : (plan (before ++ [.task e])).tasks = (plan before).tasks ++ [taskBehind before e] := tasks_concat before _
  have kept : (plan (before ++ [.task e])).tasks <+: (plan ss).tasks := by
    rw [h, List.append_cons before (.task e) after]
    exact tasks_append ..
  obtain ⟨later, same⟩ := kept
  rw [← same, ends, ← length_tasks, List.append_assoc, List.getElem?_append_right (Nat.le_refl _), Nat.sub_self]
  rfl

theorem mem_tasks_iff {ss : List Statement} {task : Task} : task ∈ (plan ss).tasks ↔ Gives ss task := by
  constructor
  · intro mem
    induction ss using List.reverseRecOn with
    | nil => cases mem
    | append_singleton ss s ih =>
      rw [tasks_concat, List.mem_append] at mem
      obtain mem | mem := mem
      · obtain ⟨before, e, after, rfl, same⟩ := ih mem
        exact ⟨before, e, after ++ [s], by simp, same⟩
      · obtain ⟨e, he, same⟩ := List.mem_map.1 mem
        obtain ⟨s', hs, found⟩ := List.mem_filterMap.1 he
        obtain rfl := List.mem_singleton.1 hs
        cases s' with
        | task e' =>
          obtain rfl := Option.some.inj found
          exact ⟨ss, e', [], rfl, same⟩
        | _ => cases found
  · rintro ⟨before, e, after, split, rfl⟩
    exact List.mem_of_getElem? (tasks_at split)

/-! ## References -/

theorem hasTask_iff {p : Plan} {id : String} : p.hasTask id = true ↔ ∃ task ∈ p.tasks, task.id = id := by
  simp [Plan.hasTask, Plan.task?]

theorem checkTask_eq_ok {p : Plan} {task : Task} {offset : Nat} :
    p.checkTask (task, offset) = .ok () ↔ ∀ id ∈ task.dependencies, p.hasTask id = true := by
  rw [Plan.checkTask]
  cases missing : task.dependencies.find? (!p.hasTask ·) with
  | some id =>
    refine ⟨nofun, fun known => ?_⟩
    have unknown := List.find?_some missing
    rw [known id (List.mem_of_find?_eq_some missing)] at unknown
    cases unknown
  | none => exact ⟨fun _ id mem => by simpa using List.find?_eq_none.1 missing id mem, fun _ => rfl⟩

/-- Whether all tasks that a task refers to are given. -/
def Known (ss : List Statement) : Prop :=
  ∀ task, Gives ss task → ∀ id ∈ task.dependencies, ∃ other, Gives ss other ∧ other.id = id

theorem known_iff {ss : List Statement} : Known ss ↔
    ∀ task ∈ (plan ss).tasks, ∀ id ∈ task.dependencies, ∃ other ∈ (plan ss).tasks, other.id = id := by
  simp only [Known, mem_tasks_iff]

theorem length_offsets (placed : List (Nat × Statement)) :
    (placed.filterMap taskOffset?).length = (entries (placed.map (·.2))).length := by
  induction placed with
  | nil => rfl
  | cons first placed ih =>
    obtain ⟨offset, s⟩ := first
    cases s with
    | task e => exact congrArg (· + 1) ih
    | _ => exact ih

/-- The plan of statements is read if all that their tasks refer to is given. -/
theorem read_eq_ok {t : Tree} {ss : List Statement} (h : statements.readAll (t.list "statements") = .ok ss)
    {p : Plan} : read t = .ok p ↔ Known ss ∧ plan ss = p := by
  obtain ⟨placed, hplaced, rfl⟩ := readAll_eq_ok.1 h
  have offsets : (plan (placed.map (·.2))).tasks.length = (placed.filterMap taskOffset?).length := by
    rw [length_tasks, length_offsets]
  have every : ∀ task ∈ (plan (placed.map (·.2))).tasks, ∃ offset,
      (task, offset) ∈ (plan (placed.map (·.2))).tasks.zip (placed.filterMap taskOffset?) := by
    intro task mem
    rw [← List.map_fst_zip (Nat.le_of_eq offsets)] at mem
    obtain ⟨⟨_, offset⟩, place, rfl⟩ := List.mem_map.1 mem
    exact ⟨offset, place⟩
  have checked : (∀ pair ∈ (plan (placed.map (·.2))).tasks.zip (placed.filterMap taskOffset?),
      (plan (placed.map (·.2))).checkTask pair = .ok ()) ↔ Known (placed.map (·.2)) := by
    constructor
    · intro all task given id mem
      obtain ⟨offset, place⟩ := every task (mem_tasks_iff.2 given)
      obtain ⟨other, found, same⟩ := hasTask_iff.1 (checkTask_eq_ok.1 (all _ place) id mem)
      exact ⟨other, mem_tasks_iff.1 found, same⟩
    · rintro known ⟨task, offset⟩ place
      refine checkTask_eq_ok.2 fun id mem => ?_
      obtain ⟨other, given, same⟩ := known task (mem_tasks_iff.1 (List.of_mem_zip place).1) id mem
      exact hasTask_iff.2 ⟨other, mem_tasks_iff.2 given, same⟩
  rw [read, hplaced, ← checked, ← forM_eq_ok, bind_eq_ok]
  constructor
  · rintro ⟨_, e, hread⟩
    obtain rfl := Except.ok.inj e
    obtain ⟨_, checks, same⟩ := bind_eq_ok.1 hread
    exact ⟨checks, pure_eq_ok.1 same⟩
  · rintro ⟨checks, rfl⟩
    exact ⟨_, rfl, bind_eq_ok.2 ⟨_, checks, rfl⟩⟩

/-! ## Documents -/

/-- The plan has the tasks of statements in their order, each in the last section opened before it, and no others. -/
structure Plan.HasTasksOf (p : Plan) (ss : List Statement) : Prop where
  sections : p.sections = sectionNames ss
  count : p.tasks.length = (entries ss).length
  each : ∀ before e after, ss = before ++ .task e :: after →
    p.tasks[(entries before).length]? = some (taskBehind before e)

/-- A plan is read from statements that are read and refer to given tasks only. -/
theorem read_eq_ok_iff {t : Tree} {p : Plan} :
    read t = .ok p ↔ ∃ ss, statements.readAll (t.list "statements") = .ok ss ∧ Known ss ∧ plan ss = p := by
  refine ⟨fun hread => ?_, fun ⟨ss, hss, h⟩ => (read_eq_ok hss).2 h⟩
  obtain ⟨placed, hplaced, -⟩ := bind_eq_ok.1 hread
  have hss := readAll_eq_ok.2 ⟨placed, hplaced, rfl⟩
  exact ⟨_, hss, (read_eq_ok hss).1 hread⟩

theorem hasTasksOf_plan (ss : List Statement) : (plan ss).HasTasksOf ss where
  sections := sections_plan ss
  count := length_tasks ss
  each _ _ _ split := tasks_at split

/-- Lines of tasks make a document that is accepted and read as their tasks, and in any accepted document a statement
on such a line is the task that the line says. No plan is read where the data on the line of a task are malformed, and
nothing else keeps the statements of an accepted document from being read. A plan is read from them exactly if all that
tasks refer to is given, and has their tasks. -/
theorem tasks_of_documents (depth : Nat) :
    (∀ tasks : List WrittenTask, ∀ ending ∈ ["", "\n"],
      ∃ t, grammar.parse (depth + 1) (document tasks ++ ending) = .ok t ∧
        statements.readAll (t.list "statements") = .ok (tasks.map fun w => .task w.entry)) ∧
    ∀ input t, grammar.parse (depth + 1) input = .ok t →
      (∀ s ∈ t.list "statements",
        (∀ w : WrittenTask, OnLine w.name w.data.text s → statements.read s = .ok (.task w.entry)) ∧
        ∀ name data, IsName name → IsData data → OnLine name data s → IsMalformed data → ∀ p, read t ≠ .ok p) ∧
      ((∃ ss, statements.readAll (t.list "statements") = .ok ss) ↔ ∀ s ∈ t.list "statements", IsSound s) ∧
      ((∃ p, read t = .ok p) ↔ ∃ ss, statements.readAll (t.list "statements") = .ok ss ∧ Known ss) ∧
      ∀ p, read t = .ok p → ∃ ss, statements.readAll (t.list "statements") = .ok ss ∧ p.HasTasksOf ss := by
  refine ⟨fun tasks ending hending => ?_, fun input t accepted => ⟨fun s mem => ⟨fun w line => ?_,
    fun name data hname hdata line malformed p hread => ?_⟩, exists_readAll_iff accepted, ?_, fun p hread => ?_⟩⟩
  · simp only [List.mem_cons, List.not_mem_nil, or_false] at hending
    obtain rfl | rfl := hending
    · exact exists_tree (.inr ⟨rfl, rfl⟩) tasks
    · exact exists_tree (.inl rfl) tasks
  · exact (isTaskOf_of_onLine accepted mem w.isName w.data.isData line).read_data
  · obtain ⟨ss, hss, -⟩ := read_eq_ok_iff.1 hread
    have sound := (exists_readAll_iff accepted).1 ⟨ss, hss⟩ s mem
    exact (isTaskOf_of_onLine accepted mem hname hdata line).isSound_iff.1 sound malformed
  · simp only [read_eq_ok_iff]
    exact ⟨fun ⟨_, ss, hss, known, _⟩ => ⟨ss, hss, known⟩, fun ⟨ss, hss, known⟩ => ⟨_, ss, hss, known, rfl⟩⟩
  · obtain ⟨ss, hss, -, rfl⟩ := read_eq_ok_iff.1 hread
    exact ⟨ss, hss, hasTasksOf_plan ss⟩

/-- A task on the line "Design:crit, after b, 1.5d". -/
def design : WrittenTask where
  name := "Design"
  isName := ⟨by decide, ⟨'D', rfl, by decide⟩, by decide, by decide⟩
  data :=
    { tags := [.crit]
      schedule :=
        { lead := some (none, .after [⟨" ", "b", by decide, by decide, by decide, by decide⟩] (by decide))
          finish := .duration ⟨.none, [⟨1, by decide⟩], some [⟨5, by decide⟩], by decide⟩ .days ⟨rfl, by decide, by decide⟩
          id_isItem := nofun }
      noMark := by decide }

/-- A task on the line "Build:b, 2024-01-01, until task1". -/
def build : WrittenTask where
  name := "Build"
  isName := ⟨by decide, ⟨'B', rfl, by decide⟩, by decide, by decide⟩
  data :=
    { tags := []
      schedule :=
        { lead := some (some "b", .date "2024-01-01" (isItem_of_word (by decide) (by decide))
            (references?_eq_none.1 (by decide)))
          finish := .until [⟨" ", "task1", by decide, by decide, by decide, by decide⟩] (by decide)
          id_isItem := by
            rintro _ ⟨⟩
            exact isItem_of_word (by decide) (by decide) }
      noMark := by decide }

/-- Two tasks that refer to each other, one of them by the id that is made up for it; and data without an item behind
the marks. -/
theorem tasks_of_design :
    (∃ t p, grammar.parse 20 "gantt\nDesign:crit, after b, 1.5d\nBuild:b, 2024-01-01, until task1\n" = .ok t ∧
      read t = .ok p ∧ p.HasTasksOf [.task design.entry, .task build.entry] ∧ p.tasks.map Task.id = ["task1", "b"]) ∧
    ∃ t, grammar.parse 20 "gantt\nBuild: done, crit\n" = .ok t ∧ ∀ p, read t ≠ .ok p := by
  have text : document [design, build] ++ "\n" =
      "gantt\nDesign:crit, after b, 1.5d\nBuild:b, 2024-01-01, until task1\n" := by decide +kernel
  have known : Known [.task design.entry, .task build.entry] := known_iff.2 (by decide +kernel)
  have ids : (plan [.task design.entry, .task build.entry]).tasks.map Task.id = ["task1", "b"] := by decide +kernel
  constructor
  · obtain ⟨t, parsed, reads⟩ := (tasks_of_documents 19).1 [design, build] "\n" (by decide)
    obtain ⟨-, -, success, plans⟩ := (tasks_of_documents 19).2 _ t parsed
    obtain ⟨p, hread⟩ := success.2 ⟨_, reads, known⟩
    obtain ⟨ss, hss, tasks⟩ := plans p hread
    obtain rfl := Except.ok.inj (reads.symm.trans hss)
    obtain ⟨-, rfl⟩ := (read_eq_ok reads).1 hread
    exact ⟨t, _, text ▸ parsed, hread, tasks, ids⟩
  · have line : ((grammar.parse 20 "gantt\nBuild: done, crit\n").toOption.any fun t =>
        (t.list "statements").any fun s => s.span.text == "Build: done, crit\n") = true := by decide +kernel
    obtain ⟨t, accepted, some_line⟩ := (Option.any_eq_true _ _).1 line
    obtain ⟨s, mem, text⟩ := List.any_eq_true.1 some_line
    have parsed := toOption_eq_some.1 accepted
    have onLine : OnLine "Build" "done, crit" s :=
      ⟨[], [' '], ['\n'], by decide, by decide, by rw [beq_iff_eq.1 text]; decide⟩
    exact ⟨t, parsed, (((tasks_of_documents 19).2 _ t parsed).1 s mem).2 "Build" "done, crit" build.isName
      ⟨by decide, ⟨'d', rfl, by decide⟩⟩ onLine (.inr (.inl (by decide +kernel)))⟩

/-- A name behind two percent signs is no name but a comment, and a blank behind a name does not belong to it, although
neither begins as a statement does. -/
theorem exists_name_lost :
    (∀ name ∈ ["%% A", "B "], ':' ∉ name.toList ∧ ∀ word ∈ words, hasKeyword word name.toList = false) ∧
      IsItem "1d" ∧
      ∃ t p, grammar.parse 20 "gantt\n%% A:1d\nB :1d\n" = .ok t ∧ read t = .ok p ∧
        p.tasks.map Task.name = ["B"] := by
  have names : ((grammar.parse 20 "gantt\n%% A:1d\nB :1d\n").toOption.bind fun t => (read t).toOption).map
      (fun p => p.tasks.map Task.name) = some ["B"] := by decide +kernel
  obtain ⟨p, hp, found⟩ := Option.map_eq_some_iff.1 names
  obtain ⟨t, ht, hread⟩ := Option.bind_eq_some_iff.1 hp
  exact ⟨by decide, isItem_of_word (by decide) (by decide), t, p, toOption_eq_some.1 ht, toOption_eq_some.1 hread,
    found⟩

end DiagramText.Gantt
