import DiagramText.Proofs.Gantt.Statements
import DiagramText.Proofs.Peg.Replace

/-!
# Lines of tasks

A line with a name, a colon and data is taken as a task with exactly these texts (`takes_task`), unless the name begins
as another statement or a comment does. So a statement of an accepted document that stands on such a line is this task
(`isTaskOf_of_onLine`), and documents of such lines are accepted, with a task for each (`exists_tree`).
-/

namespace DiagramText.Gantt

open Peg Reading

/-! ## Statements -/

/-- The words that the other statements begin with. -/
def words : List String :=
  ["title", "dateFormat", "axisFormat", "tickInterval", "excludes", "includes", "todayMarker", "weekday",
    "inclusiveEndDates", "topAxis", "accTitle", "accDescr", "section", "click"]

/-- Whether a text starts with something other than a space or a tab. -/
def Starts (text : List Char) : Prop := ∃ c ∈ text.head?, c ≠ ' ' ∧ c ≠ '\t'

/-- A name that a task may stand under on its line, blanks in front of it aside. -/
structure IsName (name : String) : Prop where
  plain : ∀ c ∈ name.toList, c ≠ ':' ∧ c ≠ '\r' ∧ c ≠ '\n'
  starts : Starts name.toList
  noComment : ¬ "%%".toList <+: name.toList
  noWord : ∀ word ∈ words, hasKeyword word name.toList = false

/-- Data that may stand behind the colon, blanks in front of them aside. -/
structure IsData (data : String) : Prop where
  inLine : ∀ c ∈ data.toList, c ≠ '\r' ∧ c ≠ '\n'
  starts : Starts data.toList

/-- Whether a statement is a task with these texts. -/
def IsTaskOf (name data : String) (statement : Tree) : Prop :=
  ∃ task, statement.fields = [("task", .tree task)] ∧ texts task = [("name", name), ("data", data)]

section

variable {table : List (String × Rule)} {depth : Nat} {name data : String} {gap rest : List Char}

theorem Starts.ne_nil {text : List Char} (h : Starts text) : text ≠ [] := by
  obtain ⟨c, hc, -⟩ := h
  exact List.ne_nil_of_mem (List.mem_of_mem_head? hc)

theorem Starts.takes_blanks {text : List Char} (h : Starts text) {blanks : List Char}
    (hblanks : ∀ c ∈ blanks, c = ' ' ∨ c = '\t') (more : List Char) :
    ws.Takes table depth blanks (text ++ more) fun _ => .items [] := by
  refine Peg.takes_blanks hblanks fun c hc => ?_
  obtain ⟨d, hd, full⟩ := h
  rw [List.head?_append, Option.mem_def.1 hd] at hc
  exact Option.some.inj hc ▸ full

namespace IsName

variable (h : IsName name)
include h

theorem misses_keyword {word : String} (hword : word ∈ words) (more : List Char) :
    (keyword word).Misses table depth (name.toList ++ ':' :: more) := by
  refine Peg.misses_keyword ?_
  rw [hasKeyword_append_mark (by revert word; decide) rfl]
  exact h.noWord word hword

/-- No other statement begins with the name. -/
theorem misses_others (more : List Char) : (Rule.choice
    [title "title", settingRule "dateFormat" "date_format", settingRule "axisFormat" "axis_format",
      settingRule "tickInterval" "tick_interval", settingRule "excludes" "excludes",
      settingRule "includes" "includes", settingRule "todayMarker" "today_marker", settingRule "weekday" "weekday",
      .capture "inclusive_end_dates" (keyword "inclusiveEndDates"), .capture "top_axis" (keyword "topAxis"),
      accessibility "acc_title" "acc_descr",
      .sequence [keyword "section", ws1, .capture "section" (text1Until "\r\n" "section name")],
      clickRule]).Misses table depth (name.toList ++ ':' :: more) := by
  have bare (word : String) (hword : word ∈ words) :
      (keyword word).Misses table depth (name.toList ++ ':' :: more) := h.misses_keyword hword more
  have miss (word : String) (hword : word ∈ words) {rules : List Rule} :
      (Rule.sequence (keyword word :: rules)).Misses table depth (name.toList ++ ':' :: more) :=
    (bare word hword).sequence
  refine (miss "title" (by decide)).or ((miss "dateFormat" (by decide)).or ((miss "axisFormat" (by decide)).or
    ((miss "tickInterval" (by decide)).or ((miss "excludes" (by decide)).or ((miss "includes" (by decide)).or
    ((miss "todayMarker" (by decide)).or ((miss "weekday" (by decide)).or ?_)))))))
  refine ((bare "inclusiveEndDates" (by decide)).capture _).or (((bare "topAxis" (by decide)).capture _).or ?_)
  refine ((miss "accTitle" (by decide)).or ((miss "accDescr" (by decide)).or misses_choice_nil)).or ?_
  exact (miss "section" (by decide)).or (((miss "click" (by decide)).capture _).or misses_choice_nil)

/-- The line is not blank. -/
theorem misses_blankLine {blanks : List Char} (hblanks : ∀ c ∈ blanks, c = ' ' ∨ c = '\t') (more : List Char) :
    blankLine.Misses table depth (blanks ++ (name.toList ++ ':' :: more)) := by
  have noComment : comment.Misses table depth (name.toList ++ ':' :: more) := by
    refine (misses_lit ?_).sequence
    rintro ⟨rest, e⟩
    obtain ⟨behind, same, -⟩ := exists_append_of_mark (by decide) e.symm
    exact h.noComment ⟨behind, same.symm⟩
  have noEnd : newline.Misses table depth (name.toList ++ ':' :: more) := by
    intro offset
    refine outcome_newline_of_inLine fun c hc => ?_
    obtain ⟨d, hd, -⟩ := h.starts
    rw [List.head?_append, Option.mem_def.1 hd] at hc
    exact (h.plain c (Option.some.inj hc ▸ List.mem_of_mem_head? hd)).2
  exact Rule.Misses.quiet
    ((h.starts.takes_blanks hblanks _).misses (noComment.optional.nil_misses noEnd.sequence))

end IsName

/-- A line of a task is taken up to its end. -/
theorem takes_task (hname : IsName name) (hdata : IsData data) (hgap : ∀ c ∈ gap, c = ' ' ∨ c = '\t')
    (hrest : ∀ c ∈ rest.head?, c ∈ ['\r', '\n']) :
    ∃ fields : Nat → List (String × Node),
      statementRule.Takes table depth (name.toList ++ ':' :: (gap ++ data.toList)) rest
        (fun offset => .fields (fields offset)) ∧
      ∀ offset span, IsTaskOf name data (.mk span (fields offset)) := by
  have onData : ∀ c ∈ data.toList, c ∉ "\r\n".toList := by simpa using hdata.inLine
  have onName : ∀ c ∈ name.toList, c ∉ ":\r\n".toList := by simpa using hname.plain
  have dataText : (text1Until "\r\n" "task data").Takes table depth data.toList rest fun _ => .items [] :=
    takes_text1Until hdata.starts.ne_nil onData (by simpa using hrest) _
  have blanks : ws.Takes table depth gap (data.toList ++ rest) fun _ => .items [] := hdata.starts.takes_blanks hgap rest
  have colon : (Rule.labelled "':'" (lit ":")).Takes table depth [':'] (gap ++ data.toList ++ rest) fun _ => .empty :=
    (takes_lit ":" _).labelled _
  have nameText : (text1Until ":\r\n" "task name").Takes table depth name.toList
      ([':'] ++ (gap ++ data.toList) ++ rest) fun _ => .items [] :=
    takes_text1Until hname.starts.ne_nil onName (by simp) _
  have parts := (nameText.token rfl "name").cons
    (colon.skip rfl (blanks.skip rfl (dataText.token rfl "data").last))
  have task : (Rule.choice [_]).Takes table depth _ rest _ :=
    (parts.tree (fun _ => List.cons_ne_nil _ _) "task").choice
  have others := @IsName.misses_others table depth name hname (gap ++ data.toList ++ rest)
  rw [← List.cons_append, ← List.append_assoc] at others
  exact ⟨_, (others.choiceAppend task).labelled _, fun offset span => ⟨_, rfl, rfl⟩⟩

/-- A line of a task, be it indented, is taken in a round of its own. -/
theorem takes_round (hname : IsName name) (hdata : IsData data) (hgap : ∀ c ∈ gap, c = ' ' ∨ c = '\t')
    {indent ending : List Char} (hindent : ∀ c ∈ indent, c = ' ' ∨ c = '\t')
    (hend : (ending = ['\n'] ∨ ending = ['\r', '\n']) ∨ ending = [] ∧ rest = []) :
    ∃ fields : Nat → List (String × Node),
      (statementRound (.ref "statement")).Takes grammar.rules (depth + 1)
        (indent ++ (name.toList ++ ':' :: (gap ++ data.toList) ++ ending)) rest
        (fun offset => .fields (fields offset)) ∧
      ∀ offset span, IsTaskOf name data (.mk span (fields offset)) := by
  have stop : ∀ c ∈ (ending ++ rest).head?, c ∈ ['\r', '\n'] := by
    obtain (rfl | rfl) | ⟨rfl, rfl⟩ := hend <;> simp
  have ends : eol.Takes grammar.rules (depth + 1) ending rest fun _ => .fields [] := by
    obtain hend | hend := hend
    · exact takes_lineEnd hend rest
    · exact takes_eol (.inr hend)
  obtain ⟨fields, taken, isTask⟩ := @takes_task grammar.rules depth _ _ _ _ hname hdata hgap stop
  generalize htext : name.toList ++ ':' :: (gap ++ data.toList) = text at taken ⊢
  have statement : (Rule.ref "statement").Takes grammar.rules (depth + 1) text (ending ++ rest) _ := taken.ref rfl
  have front : ws.Takes grammar.rules (depth + 1) indent (text ++ (ending ++ rest)) fun _ => .items [] := by
    rw [← htext, List.append_assoc]
    exact hname.starts.takes_blanks hindent _
  have blank : blankLine.Misses grammar.rules (depth + 1) (indent ++ (text ++ (ending ++ rest))) := by
    rw [← htext, List.append_assoc]
    exact hname.misses_blankLine hindent _
  exact ⟨_, takes_statementLine blank front statement ends rfl, fun offset span => isTask _ span⟩

/-! ## Statements of accepted documents -/

/-- Whether a statement stands on the line with this name and these data, perhaps with spaces and tabs in front of
them. -/
def OnLine (name data : String) (statement : Tree) : Prop :=
  ∃ indent gap ending, (∀ c ∈ indent ++ gap, c = ' ' ∨ c = '\t') ∧ ending ∈ [[], ['\n'], ['\r', '\n']] ∧
    statement.span.text.toList = indent ++ (name.toList ++ ':' :: (gap ++ data.toList) ++ ending)

/-- A statement of an accepted document is what a round leaves that takes its text, which has a line feed unless
nothing comes behind it. -/
theorem exists_line {input : String} {t s : Tree} (accepted : grammar.parse depth input = .ok t)
    (mem : s ∈ t.list "statements") : ∃ offset stop rest a,
      (statementRound (.ref "statement")).outcome grammar.rules depth
          ⟨offset, s.span.text.toList ++ rest⟩ = some (⟨stop, rest⟩, a) ∧
        s.fields = a.toFields ∧ (rest ≠ [] → '\n' ∈ s.span.text.toList) := by
  obtain ⟨⟨offset, behind⟩, ⟨stop, rest⟩, a, hm, left⟩ := exists_round_of_mem rfl rfl accepted mem
  obtain ⟨taken, moved⟩ := outcome_reaches hm
  obtain rfl : behind = taken ++ rest := moved.rest
  have round : (statementRound (.ref "statement")).outcome grammar.rules depth
    ⟨offset, taken ++ rest⟩ = some (⟨stop, rest⟩, a) := hm
  have feed : rest ≠ [] → '\n' ∈ taken := by
    intro more
    obtain ⟨_, _, behind, _, _, _, _, e, -, -, hend, -⟩ := exists_of_statementRound round left
    rw [e]
    exact List.mem_append_right _ (List.mem_append_right _ (feed_mem_of_eol more hend))
  rw [moved.spanTo, Fragment.round] at left
  split at left
  · cases left
  · obtain rfl := List.mem_singleton.1 left
    have covers : (String.ofList taken).toList = taken := String.toList_ofList
    exact ⟨offset, stop, rest, a, covers.symm ▸ round, rfl, covers.symm ▸ feed⟩

theorem isTaskOf_of_onLine {input : String} {t s : Tree} (accepted : grammar.parse (depth + 1) input = .ok t)
    (mem : s ∈ t.list "statements") (hname : IsName name) (hdata : IsData data) (h : OnLine name data s) :
    IsTaskOf name data s := by
  obtain ⟨offset, stop, rest, a, round, left, feed⟩ := exists_line accepted mem
  obtain ⟨indent, gap, ending, blanks, hending, text⟩ := h
  rw [List.forall_mem_append] at blanks
  have hend : (ending = ['\n'] ∨ ending = ['\r', '\n']) ∨ ending = [] ∧ rest = [] := by
    simp only [List.mem_cons, List.not_mem_nil, or_false] at hending
    obtain rfl | hending := hending
    · refine .inr ⟨rfl, by_contra fun more => ?_⟩
      have noBlank {cs : List Char} (h : ∀ c ∈ cs, c = ' ' ∨ c = '\t') : '\n' ∉ cs := fun mem => by simpa using h _ mem
      have noName : '\n' ∉ name.toList := fun mem => (hname.plain _ mem).2.2 rfl
      have noData : '\n' ∉ data.toList := fun mem => (hdata.inLine _ mem).2 rfl
      have := feed more
      simp [text, noBlank blanks.1, noBlank blanks.2, noName, noData] at this
    · exact .inl hending
  obtain ⟨fields, takes, isTask⟩ := takes_round hname hdata blanks.2 blanks.1 hend
  have same := takes offset
  rw [← text, round] at same
  obtain ⟨-, rfl⟩ := Prod.mk.inj (Option.some.inj same)
  obtain ⟨span, _⟩ := s
  obtain rfl := left
  exact isTask _ span

end

/-! ## Reading -/

/-- The task of a statement has its texts, and the statement has nothing else. -/
theorem IsTaskOf.exists_task {name data : String} {s : Tree} (h : IsTaskOf name data s) :
    ∃ task, s.tree? "task" = some task ∧ (∀ other, s.has other = true → other = "task") ∧
      task.text? "name" = some name ∧ task.text? "data" = some data := by
  obtain ⟨span, fields⟩ := s
  obtain ⟨task, e, found⟩ := h
  obtain rfl : fields = [("task", .tree task)] := e
  refine ⟨task, rfl, fun other has => ?_, text?_of_texts _ _ found rfl, text?_of_texts _ _ found rfl⟩
  have same : "task" = other := by simpa [Tree.has, Tree.fields] using has
  exact same.symm

/-- A task of written data is read as they say. -/
theorem IsTaskOf.read_data {name : String} {d : Data} {s : Tree} (h : IsTaskOf name d.text s) :
    statements.read s = .ok (.task (d.entry (trim name))) := by
  obtain ⟨task, htask, sole, hname, hdata⟩ := h.exists_task
  rw [read_task sole htask, entry_of_data hname hdata]
  rfl

theorem IsTaskOf.isSound_iff {name data : String} {s : Tree} (h : IsTaskOf name data s) :
    IsSound s ↔ ¬ IsMalformed data := by
  obtain ⟨task, htask, -, -, hdata⟩ := h.exists_task
  simp [IsSound, htask, hdata]

/-! ## Documents of tasks -/

theorem Data.isData (d : Data) : IsData d.text where
  inLine := inLine_joined d.items_ne_nil d.isItem_of_mem
  starts := by
    obtain ⟨item, mem, more, e⟩ := exists_joined d.items_ne_nil d.isItem_of_mem
    have item := d.isItem_of_mem _ mem
    obtain ⟨c, cs, first⟩ := List.exists_cons_of_ne_nil item.chars_ne
    have full : isBlank c = false :=
      Chars.head_of_trimStart (Chars.trim_eq_iff.1 item.trim_chars).1 c (by rw [first]; rfl)
    refine ⟨c, by rw [Data.text, e, first]; rfl, ?_, ?_⟩
    all_goals
      rintro rfl
      cases full

/-- A task that is written on a line. -/
structure WrittenTask where
  name : String
  isName : IsName name
  data : Data

namespace WrittenTask

/-- The line, without its end. -/
def line (w : WrittenTask) : String := w.name ++ ":" ++ w.data.text

/-- The task that the line says. -/
noncomputable def entry (w : WrittenTask) : Entry := w.data.entry (trim w.name)

theorem toList_line (w : WrittenTask) : w.line.toList = w.name.toList ++ ':' :: w.data.text.toList := by
  simp [line]

end WrittenTask

/-- Tasks of written data are read as they say. -/
theorem readAll_tasks {tasks : List WrittenTask} {trees : List Tree}
    (h : List.Forall₂ (fun w => IsTaskOf w.name w.data.text) tasks trees) :
    statements.readAll trees = .ok (tasks.map fun w => .task w.entry) := by
  induction h with
  | nil => rfl
  | cons isTask _ ih => exact readAll_cons isTask.read_data ih

/-- The document of tasks, a line for each behind the header. -/
def document (tasks : List WrittenTask) : String :=
  "gantt" ++ String.join (tasks.map fun w => "\n" ++ w.line)

section

variable {depth : Nat} {ending : List Char} (hend : Ends ending [])
include hend

/-- The lines behind the header are taken as the tasks. -/
theorem takes_tasks (tasks : List WrittenTask) :
    ∃ (feed lines : List Char) (trees : Nat → List Tree),
      tasks.flatMap (fun w => '\n' :: w.line.toList) ++ ending = feed ++ lines ∧ Ends feed lines ∧
        (statementLines (.ref "statement")).Takes grammar.rules (depth + 1) lines []
          (fun offset => .items (trees offset)) ∧
        ∀ offset, List.Forall₂ (fun w => IsTaskOf w.name w.data.text) tasks (trees offset) := by
  induction tasks with
  | nil =>
    have noStatement : (Rule.ref "statement").Misses grammar.rules (depth + 1) [] :=
      Rule.Misses.ref rfl fun _ => rfl
    exact ⟨ending, [], _, by simp, hend, takes_statementLines_nil noStatement, fun _ => .nil⟩
  | cons w tasks ih =>
    obtain ⟨feed, lines, trees, split, ends, later, areIn⟩ := ih
    have behind : (feed = ['\n'] ∨ feed = ['\r', '\n']) ∨ feed = [] ∧ lines ++ [] = [] := by
      rw [List.append_nil]
      exact ends.imp_left .inl
    have noBlanks : ∀ c ∈ ([] : List Char), c = ' ' ∨ c = '\t' := nofun
    obtain ⟨fields, taken, isTask⟩ := takes_round w.isName w.data.isData noBlanks noBlanks behind
    have filled (offset : Nat) : fields offset ≠ [] := by
      intro none
      obtain ⟨task, e, -⟩ := isTask offset default
      rw [none] at e
      cases e
    have rounds := taken.many (by simp) later
    refine ⟨['\n'], _, _, ?_, .inl rfl, rounds, fun offset => ?_⟩
    · rw [List.flatMap_cons, List.append_assoc, split, w.toList_line]
      simp
    · rw [round_fields (filled offset)]
      exact .cons (isTask offset _) (areIn _)

/-- The document of tasks is accepted, and read as its tasks. -/
theorem exists_tree (tasks : List WrittenTask) :
    ∃ t, grammar.parse (depth + 1) (document tasks ++ String.ofList ending) = .ok t ∧
      statements.readAll (t.list "statements") = .ok (tasks.map fun w => .task w.entry) := by
  obtain ⟨feed, lines, trees, split, ends, taken, areIn⟩ := takes_tasks hend tasks
  have stop : ∀ c ∈ (feed ++ lines).head?, isWordChar c = false := by
    obtain rfl | ⟨rfl, rfl⟩ := ends
    · rintro c ⟨⟩
      rfl
    · nofun
  have header : (keyword "gantt").Takes grammar.rules (depth + 1) "gantt".toList (feed ++ lines)
      fun _ => .fields [] := takes_keyword "gantt" stop
  obtain ⟨t, offset, parsed, statements⟩ := exists_rounds rfl ⟨'g', rfl, by decide⟩ header rfl ends taken
  have source : document tasks ++ String.ofList ending = String.ofList ("gantt".toList ++ feed ++ lines) := by
    rw [List.append_assoc, ← split, ← String.toList_inj]
    simp [document, String.toList_join, List.flatMap_map]
  exact ⟨t, source ▸ parsed, statements ▸ readAll_tasks (areIn offset)⟩

end

end DiagramText.Gantt
