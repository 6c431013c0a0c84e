import DiagramText.Proofs.Flowchart.Names
import DiagramText.Proofs.Git.Names

/-!
# Ids that are made up

Tasks of a plan, lines of a board, commits of a history and subgraphs of a flowchart may go without an id
and then get one. `Kind.slots?` lists the entities of a document with the ids that it gives, and says how
each of the four kinds makes up the others.

Ids that are made up differ from each other in every document. But nothing keeps a document from giving an
id that is made up for another entity, before or after that: only commits look for one that is free. What
then goes wrong differs by kind, and nothing does if it gives none (`generated_names_apart_iff`).
-/

namespace DiagramText

open Naming

/-! ## Plans -/

namespace Gantt

/-- The tasks of a document; one without an id is named by its number. -/
def slots (statements : List Statement) : List Slot :=
  statements.filterMap fun
    | .task e => some (.of e.id fun before => "task" ++ toString (before.length + 1))
    | _ => none

theorem nodup_generated_slots (statements : List Statement) :
    (generated (nameAll (slots statements))).Nodup := by
  refine @nodup_generated_of_counts _ ["task"] (fun before => before.length + 1) ?_
    (by simp [extend]) (by simp [extend]) ?_
  · simp only [List.mem_singleton]
    rintro _ rfl _ rfl m n same
    exact number_eq_of_label "task" same
  · intro make hmake before
    obtain ⟨statement, -, hslot⟩ := List.mem_filterMap.1 hmake
    cases statement with
    | task e =>
      obtain ⟨-, rfl⟩ := Slot.of_eq_made (Option.some.inj hslot)
      exact ⟨"task", List.mem_singleton_self _, rfl⟩
    | _ => cases hslot

theorem ids_tasks (statements : List Statement) {p : Plan} {before : List Name}
    (h : p.tasks.map Task.id = ids before) :
    (statements.foldl Plan.apply p).tasks.map Task.id = ids ((slots statements).foldl extend before) := by
  induction statements generalizing p before with
  | nil => exact h
  | cons statement statements ih =>
    cases statement with
    | task e =>
      refine ih ?_
      have length : p.tasks.length = before.length := by simpa [ids] using congrArg List.length h
      rw [Plan.apply, Plan.addTask, List.map_append, h, extend, ids_append]
      cases given : e.id with
      | none =>
        show _ ++ ["task" ++ toString (p.tasks.length + 1)] = _
        rw [length]
        rfl
      | some id => rfl
    | setting setting =>
      refine ih (h ▸ ?_)
      cases setting <;> rfl
    | _ => exact ih h

/-- The plan of a document has tasks of all names. -/
theorem made_of_read {t : Tree} {placed : List (Nat × Statement)} {p : Plan}
    (hplaced : statements.readPlaced (t.list "statements") = .ok placed) (h : read t = .ok p) :
    p.tasks.map Task.id = ids (nameAll (slots (placed.map (·.2)))) := by
  simp only [read, hplaced, Reading.bind_eq_ok, Reading.pure_eq_ok] at h
  obtain ⟨_, e, _, -, rfl⟩ := h
  cases e
  exact ids_tasks _ rfl

end Gantt

/-! ## Boards -/

namespace Kanban

/-- The place for the name of a line; one without an id is named by its number and whether it is a
column, which it is if it is indented no further than the first line. -/
def slotOf (first : Nat) (line : Line) : Slot :=
  .of line.entry.id fun before =>
    (if line.isColumn (some first) then "column-" else "card-") ++ toString before.length

/-- The columns and the cards of a document. -/
def slots (lines : List Line) : List Slot := lines.map (slotOf (lines.head?.elim 0 Line.indent))

theorem nodup_generated_slots (lines : List Line) : (generated (nameAll (slots lines))).Nodup := by
  refine @nodup_generated_of_counts _ ["column-", "card-"] List.length ?_ (by simp [extend])
    (by simp [extend]) ?_
  · have apart (m n : Nat) : "column-" ++ toString m ≠ "card-" ++ toString n := by
      intro same
      have := congrArg String.toList same
      rw [String.toList_append, String.toList_append] at this
      cases this
    simp only [List.mem_cons, List.not_mem_nil, or_false]
    rintro _ (rfl | rfl) _ (rfl | rfl) m n same
    · exact number_eq_of_label "column-" same
    · exact absurd same (apart m n)
    · exact absurd same.symm (apart n m)
    · exact number_eq_of_label "card-" same
  · intro make hmake before
    obtain ⟨line, -, hslot⟩ := List.mem_map.1 hmake
    obtain ⟨-, rfl⟩ := Slot.of_eq_made hslot
    by_cases column : line.isColumn (some (lines.head?.elim 0 Line.indent)) <;> simp [column]

namespace Board

theorem perm_ids_addColumn (b : Board) (id label : String) :
    (b.addColumn id label).ids.Perm (b.ids ++ [id]) := by
  have moved : (b.columns.map Column.id ++ id :: b.cards.map Card.id).Perm
      (b.columns.map Column.id ++ (b.cards.map Card.id ++ [id])) :=
    (List.perm_append_singleton _ _).symm.append_left _
  simpa [addColumn, ids, cards, List.append_assoc] using moved

/-- A card goes into the last column. -/
theorem addCard?_concat {b : Board} {columns : List Column} {last : Column} (hb : b.columns = columns ++ [last])
    (card : Card) : b.addCard? card = some ⟨columns ++ [{ last with cards := last.cards ++ [card] }]⟩ := by
  simp [addCard?, hb]

theorem addCard?_eq {b : Board} (hb : b.columns ≠ []) (card : Card) :
    ∃ b', b.addCard? card = some b' ∧ b'.columns ≠ [] ∧ b'.ids = b.ids ++ [card.id] := by
  obtain ⟨columns, last, hcolumns⟩ := (List.eq_nil_or_concat' b.columns).resolve_left hb
  refine ⟨_, addCard?_concat hcolumns card, by simp, ?_⟩
  simp [ids, cards, hcolumns]

end Board

/-- What a card is given as a label or a property does not change its id. -/
theorem id_of_entry_card {e : Entry} {id : String} {offset : Nat} {card : Card}
    (h : e.card id offset = .ok card) : card.id = id := by
  simp only [Entry.card, Reading.bind_eq_ok, Reading.pure_eq_ok] at h
  obtain ⟨card, h, rfl⟩ := h
  refine Reading.foldlM_invariant (P := fun card => card.id = id) ?_ rfl h
  intro card (field, value) card' same set
  unfold Card.set at set
  split at set
  case h_5 =>
    simp only [Reading.bind_eq_ok, Reading.pure_eq_ok] at set
    obtain ⟨-, -, rfl⟩ := set
    exact same
  all_goals
    cases set
    exact same

/-- What a line does to a board: it adds a column, or a card with its properties. -/
theorem Board.apply_eq_ok {first first' : Option Nat} {b b' : Board} {line : Line}
    (h : Board.apply (first, b) line = .ok (first', b')) :
    line.id first ∉ b.ids ∧
      (line.isColumn first = true ∧ line.entry.metadata = [] ∧ first' = some (first.getD line.indent) ∧
          b' = b.addColumn (line.id first) line.entry.label ∨
        line.isColumn first = false ∧ first' = first ∧
          ∃ card, line.entry.card (line.id first) line.offset = .ok card ∧ b' = (b.addCard? card).getD b) := by
  simp only [Board.apply] at h
  split at h
  · cases h
  · rename_i taken
    refine ⟨by simpa [Board.hasId] using taken, ?_⟩
    split at h
    · rename_i column
      split at h
      · rename_i plain
        cases h
        exact .inl ⟨column, List.isEmpty_iff.1 plain, rfl, rfl⟩
      · cases h
    · rename_i notColumn
      simp only [Reading.bind_eq_ok, Reading.pure_eq_ok] at h
      obtain ⟨card, hcard, e⟩ := h
      cases e
      exact .inr ⟨Bool.not_eq_true _ ▸ notColumn, rfl, card, hcard, rfl⟩

/-- What the lines with some names have made of a board: `first` is the indentation of the first line. -/
structure Made (first : Nat) (before : List Name) (state : Option Nat × Board) : Prop where
  first_eq : state.1 = if before = [] then none else some first
  columns_ne : before ≠ [] → state.2.columns ≠ []
  perm_ids : state.2.ids.Perm (Naming.ids before)

section

variable {first : Nat} {before : List Name} {state state' : Option Nat × Board} {line : Line}
  {lines : List Line}

theorem Made.isColumn_eq (made : Made first before state) (hfirst : before = [] → line.indent = first) :
    line.isColumn state.1 = line.isColumn (some first) := by
  rw [made.first_eq]
  split
  · rename_i empty
    simp [Line.isColumn, hfirst empty]
  · rfl

theorem Made.id_eq (made : Made first before state) (hfirst : before = [] → line.indent = first)
    (hnumber : line.number = before.length) : line.id state.1 = (nameIn before (slotOf first line)).id := by
  rw [Line.id, made.isColumn_eq hfirst, hnumber, slotOf]
  cases line.entry.id <;> rfl

/-- A line adds its name to those of the board. -/
theorem Made.apply (made : Made first before state) (hfirst : before = [] → line.indent = first)
    (hnumber : line.number = before.length) (h : Board.apply state line = .ok state') :
    Made first (extend before (slotOf first line)) state' := by
  have hid := made.id_eq hfirst hnumber
  have hne : extend before (slotOf first line) ≠ [] := by simp [extend]
  have hids {ids : List String} (h : ids.Perm (state.2.ids ++ [line.id state.1])) :
      ids.Perm (Naming.ids (extend before (slotOf first line))) := by
    rw [extend, ids_append, Naming.ids, Naming.ids, List.map_singleton, ← hid]
    exact h.trans (made.perm_ids.append_right _)
  have hopened : state.1 = none ∧ before = [] ∨ state.1 = some first ∧ before ≠ [] := by
    have := made.first_eq
    split at this
    · exact .inl ⟨this, ‹_›⟩
    · exact .inr ⟨this, ‹_›⟩
  obtain ⟨opened, b⟩ := state
  obtain ⟨opened', b'⟩ := state'
  obtain ⟨-, ⟨-, -, rfl, rfl⟩ | ⟨notColumn, rfl, card, hcard, rfl⟩⟩ := Board.apply_eq_ok h
  · refine ⟨?_, fun _ => by simp [Board.addColumn], hids (Board.perm_ids_addColumn b _ _)⟩
    rw [if_neg hne]
    obtain ⟨rfl, empty⟩ | ⟨rfl, -⟩ := hopened
    · exact congrArg some (hfirst empty)
    · rfl
  · obtain ⟨rfl, -⟩ | ⟨rfl, started⟩ := hopened
    · cases notColumn
    · obtain ⟨b', hb', columns, ids⟩ := Board.addCard?_eq (made.columns_ne started) card
      refine ⟨(if_neg hne).symm, fun _ => ?_, hids ?_⟩
      · rw [hb']
        exact columns
      · rw [hb', Option.getD_some, ids, id_of_entry_card hcard]

/-- A card is only complained of for its priority. -/
theorem unknownPriority_of_entry_card {e : Entry} {id : String} {offset : Nat} {fault : Fault Fallacy}
    (h : e.card id offset = .error fault) : ∃ text, fault.cause = .complaint (.unknownPriority text) := by
  simp only [Entry.card, Reading.bind_eq_error] at h
  obtain h | ⟨_, _, h⟩ := h
  · obtain ⟨card, ⟨field, value⟩, -, set⟩ := Reading.exists_of_foldlM_error h
    unfold Card.set at set
    split at set
    case h_5 =>
      simp only [Reading.bind_eq_error, Reading.orComplain_eq_error] at set
      obtain ⟨-, rfl⟩ | ⟨_, _, set⟩ := set
      · exact ⟨_, rfl⟩
      · cases set
    all_goals cases set
  · cases h

/-- Only an id that is there already is reported as a repetition. -/
theorem mem_of_repeatedId {offset : Option Nat} {id : String}
    (h : Board.apply state line = .error ⟨offset, .complaint (.repeatedId id)⟩) :
    line.id state.1 ∈ state.2.ids := by
  obtain ⟨opened, b⟩ := state
  simp only [Board.apply] at h
  split at h
  · rename_i taken
    simpa [Board.hasId] using taken
  · split at h
    · split at h <;> cases h
    · rw [Reading.bind_eq_error] at h
      obtain h | ⟨_, _, h⟩ := h
      · obtain ⟨text, h⟩ := unknownPriority_of_entry_card h
        cases h
      · cases h

/-- The lines of a document make a board with all names, unless they are found to repeat one. -/
theorem Made.applyAll (made : Made first before state)
    (hfirst : before = [] → ∀ line ∈ lines.head?, line.indent = first)
    (hnumber : ∀ i (line : Line), lines[i]? = some line → line.number = before.length + i) :
    (∀ state', lines.foldlM Board.apply state = .ok state' →
      Made first ((lines.map (slotOf first)).foldl extend before) state') ∧
    ∀ offset id, lines.foldlM Board.apply state = .error ⟨offset, .complaint (.repeatedId id)⟩ →
      ¬ (Naming.ids ((lines.map (slotOf first)).foldl extend before)).Nodup := by
  induction lines generalizing before state with
  | nil => exact ⟨fun _ h => by cases h; exact made, fun _ _ e => by cases e⟩
  | cons line lines ih =>
    have hline : before = [] → line.indent = first := fun empty => hfirst empty line rfl
    have hown : line.number = before.length := hnumber 0 line rfl
    have hlater : ∀ i (later : Line), lines[i]? = some later →
        later.number = (extend before (slotOf first line)).length + i := by
      intro i later hi
      rw [hnumber (i + 1) later hi, extend, List.length_append, List.length_singleton]
      omega
    rw [List.foldlM_cons, List.map_cons, List.foldl_cons]
    cases h : Board.apply state line with
    | ok next =>
      exact ih (made.apply hline hown h) (fun empty => by simp [extend] at empty) hlater
    | error fault =>
      refine ⟨fun _ e => (by cases e), fun offset id e => ?_⟩
      cases e
      exact not_nodup_of_taken
        (made.id_eq hline hown ▸ made.perm_ids.mem_iff.1 (mem_of_repeatedId h))

end

/-- The lines of a document. -/
def lines (t : Tree) : Reading Fallacy (List Line) := do
  let trees := t.list "lines"
  return (trees.zip (← entries.readAll trees)).mapIdx fun number (tree, entry) =>
    { offset := tree.span.offset, number
      indent := (tree.text? "indent").elim 0 String.length, entry }

theorem read_eq (t : Tree) :
    read t = (lines t >>= fun ls => (·.2) <$> ls.foldlM Board.apply (none, {})) := by
  simp [read, lines]

theorem number_of_lines {t : Tree} {ls : List Line} (h : lines t = .ok ls) (i : Nat) (line : Line)
    (hi : ls[i]? = some line) : line.number = i := by
  simp only [lines, Reading.bind_eq_ok, Reading.pure_eq_ok] at h
  obtain ⟨es, -, rfl⟩ := h
  rw [List.getElem?_mapIdx] at hi
  obtain ⟨_, -, rfl⟩ := Option.map_eq_some_iff.1 hi
  rfl

/-- The board of a document has all names, and a document without one is only faulted for a repeated
name if the names do repeat. -/
theorem made_of_read {t : Tree} {ls : List Line} (h : lines t = .ok ls) :
    (∀ b, read t = .ok b → b.ids.Perm (Naming.ids (nameAll (slots ls)))) ∧
    ∀ offset id, read t = .error ⟨offset, .complaint (.repeatedId id)⟩ →
      ¬ (Naming.ids (nameAll (slots ls))).Nodup := by
  have start : Made (ls.head?.elim 0 Line.indent) [] (none, {}) := ⟨rfl, nofun, .refl _⟩
  have run := @Made.applyAll _ [] (none, {}) ls start
    (fun _ line hline => by rw [Option.mem_def.1 hline]; rfl)
    (fun i line hi => by rw [number_of_lines h i line hi]; simp)
  obtain ⟨made, repeats⟩ := run
  rw [read_eq, h]
  refine ⟨fun b hb => ?_, fun offset id e => ?_⟩
  · obtain ⟨state, hstate, rfl⟩ := Reading.map_eq_ok.1 hb
    exact (made state hstate).perm_ids
  · cases hstate : ls.foldlM Board.apply (none, {}) with
    | ok state => simp [bind, Except.bind, hstate] at e
    | error fault =>
      simp only [bind, Except.bind, hstate] at e
      exact repeats offset id (hstate.trans (by cases e; rfl))

end Kanban

/-! ## Models -/

namespace Kind

/-- The entities that a document gives ids or gets ids for, in four kinds. -/
def slots? : Kind → Tree → Option (List Slot)
  | gantt, t =>
    (Gantt.statements.readPlaced (t.list "statements")).toOption.map fun placed =>
      Gantt.slots (placed.map (·.2))
  | kanban, t => (Kanban.lines t).toOption.map Kanban.slots
  | gitGraph, t =>
    (Git.statements.readPlaced (t.list "statements")).toOption.map fun placed =>
      Git.slots (placed.map (·.2))
  | flowchart, t =>
    (Flowchart.readBody t.height (t.list "statements")).toOption.map Flowchart.slots
  | _, _ => none

/-- The ids of these entities in a model. -/
def entityIds : (kind : Kind) → kind.dialect.Content → List String
  | gantt, (p : Gantt.Plan) => p.tasks.map (·.id)
  | kanban, (b : Kanban.Board) => b.columns.map (·.id) ++ b.cards.map (·.id)
  | gitGraph, (h : Git.History) => h.commits.map (·.id)
  | flowchart, (c : Flowchart.Chart) => c.nodes.map (·.id) ++ c.subgraphs.map (·.id)
  | _, _ => []

/-- Whether a complaint is about an id that is there already. -/
def Repeats : (kind : Kind) → kind.dialect.Fallacy → Prop
  | kanban, (fallacy : Kanban.Fallacy) => ∃ id, fallacy = .repeatedId id
  | gitGraph, (fallacy : Git.Fallacy) => ∃ id, fallacy = .refused (.duplicateCommit id)
  | _, _ => False

end Kind

/-- The names of the entities of a document that its grammar takes. -/
def namesOf? (options : ParseOptions) (kind : Kind) (input : String) : Option (List Name) :=
  ((kind.dialect.grammar.parse (options.nesting + 1) (sourceOf options input)).toOption.bind kind.slots?).map nameAll

theorem namesOf?_eq_some {options : ParseOptions} {kind : Kind} {input : String} {names : List Name} :
    namesOf? options kind input = some names ↔
      ∃ tree slots, kind.dialect.grammar.parse (options.nesting + 1) (sourceOf options input) = .ok tree ∧
        kind.slots? tree = some slots ∧ nameAll slots = names := by
  simp [namesOf?, Option.bind_eq_some_iff, Reading.toOption_eq_some]

/-- What a reading does with names that do not repeat: it does not complain of a repetition, and what it
reads has these ids, without an issue. -/
structure Honours (kind : Kind) (names : List Name) (reading : Reading kind.dialect.Fallacy kind.dialect.Content) :
    Prop where
  complains : ∀ fault fallacy, reading = .error fault → fault.cause = .complaint fallacy →
    kind.Repeats fallacy → ¬ (ids names).Nodup
  perm : ∀ content, reading = .ok content → Apart names → (kind.entityIds content).Perm (ids names)
  quiet : ∀ content, reading = .ok content → (kind.entityIds content).Nodup →
    ∀ id, .duplicateId id ∉ kind.dialect.issues content

/-- Names that are made are new ones, and reading honours names. -/
theorem honours_read {kind : Kind} {tree : Tree} {slots : List Slot} (h : kind.slots? tree = some slots) :
    (generated (nameAll slots)).Nodup ∧ Honours kind (nameAll slots) (kind.dialect.read tree) := by
  cases kind with
  | gantt =>
    obtain ⟨placed, hplaced, rfl⟩ := Option.map_eq_some_iff.1 h
    rw [Reading.toOption_eq_some] at hplaced
    refine ⟨Gantt.nodup_generated_slots _, nofun, ?_, ?_⟩
    · exact fun p hread _ => .of_eq (Gantt.made_of_read hplaced hread)
    · exact fun p _ distinct => Gantt.Plan.duplicate_not_mem_issues.2 distinct
  | kanban =>
    obtain ⟨lines, hlines, rfl⟩ := Option.map_eq_some_iff.1 h
    rw [Reading.toOption_eq_some] at hlines
    obtain ⟨perm, repeats⟩ := Kanban.made_of_read hlines
    refine ⟨Kanban.nodup_generated_slots _, ?_, fun b hread _ => perm b hread, ?_⟩
    · rintro ⟨offset, cause⟩ _ hread rfl ⟨id, rfl⟩
      exact repeats offset id hread
    · exact fun b _ distinct => Kanban.Board.duplicate_not_mem_issues.2 distinct
  | gitGraph =>
    obtain ⟨placed, hplaced, rfl⟩ := Option.map_eq_some_iff.1 h
    rw [Reading.toOption_eq_some] at hplaced
    obtain ⟨made, repeats⟩ := Git.made_of_read hplaced
    refine ⟨Git.nodup_generated_slots _, ?_, fun h hread _ => .of_eq (made h hread), ?_⟩
    · rintro ⟨offset, cause⟩ _ hread rfl ⟨id, rfl⟩
      exact repeats offset id hread
    · exact fun h hread _ => Git.duplicate_not_mem_issues (Git.sound_of_read hread)
  | flowchart =>
    obtain ⟨body, hbody, rfl⟩ := Option.map_eq_some_iff.1 h
    rw [Reading.toOption_eq_some] at hbody
    refine ⟨Flowchart.nodup_generated_slots _, nofun, fun c hread apart => ?_, ?_⟩
    · obtain ⟨direction, rfl⟩ := Flowchart.eq_ofStatements hbody hread
      exact Flowchart.Chart.perm_ids direction body apart
    · exact fun c hread _ => Flowchart.duplicate_not_mem_issues hread
  | _ => cases h

/-- Names that are made are distinct. If no entity gives one of them, no document is found to repeat an
id, and in a model each entity is found under its name. They are found so only if none gives one. -/
theorem generated_names_apart_iff {options : ParseOptions} {kind : Kind} {input : String} {names : List Name}
    (h : namesOf? options kind input = some names) (distinct : (written names).Nodup) :
    (generated names).Nodup ∧
    (Apart names → ∀ fault fallacy, parseAs .all options kind input = .error (.unreadable kind fault) →
      fault.cause = .complaint fallacy → ¬ kind.Repeats fallacy) ∧
    ∀ m, parseAs .all options kind input = .ok m →
      (Apart names ↔ (m.kind.entityIds m.content).Perm (ids names) ∧
        (m.kind.entityIds m.content).Nodup ∧ ∀ id, .duplicateId id ∉ m.issues) := by
  obtain ⟨tree, slots, hparse, hslots, rfl⟩ := namesOf?_eq_some.1 h
  obtain ⟨new, honours⟩ := honours_read hslots
  have apart_iff := nodup_ids_iff distinct new
  refine ⟨new, fun apart fault fallacy hreject complaint repeats => ?_, fun m hm => ⟨fun apart => ?_, ?_⟩⟩
  · obtain ⟨tree', hparse', hread⟩ := parseAs_unreadable.1 hreject
    obtain rfl := Except.ok.inj (hparse.symm.trans hparse')
    exact honours.complains fault fallacy hread complaint repeats (apart_iff.2 apart)
  · obtain ⟨tree', content, hparse', hread, hchecked⟩ := parseAs_eq_ok.1 hm
    obtain rfl := Except.ok.inj (hparse.symm.trans hparse')
    obtain rfl := eq_of_checkedModel hchecked
    have perm := honours.perm content hread apart
    have once := perm.nodup_iff.2 (apart_iff.2 apart)
    exact ⟨perm, once, honours.quiet content hread once⟩
  · rintro ⟨perm, once, -⟩
    exact apart_iff.1 (perm.nodup_iff.1 once)

/-- A commit with an id like those that are made comes before one that gets its id. -/
theorem generated_names_gitGraph :
    ∃ names m,
      namesOf? { nesting := 20 } .gitGraph "gitGraph\ncommit id: \"c0\"\ncommit\ncommit id: \"x\"\n" = some names ∧
      parseAs .all { nesting := 20 } .gitGraph "gitGraph\ncommit id: \"c0\"\ncommit\ncommit id: \"x\"\n" = .ok m ∧
      generated names = ["c1"] ∧ (m.kind.entityIds m.content).Perm (ids names) := by
  have found : (namesOf? { nesting := 20 } .gitGraph "gitGraph\ncommit id: \"c0\"\ncommit\ncommit id: \"x\"\n").any
      (fun names => decide ((written names).Nodup ∧ Apart names ∧ generated names = ["c1"])) = true := by
    decide +kernel
  obtain ⟨names, hnames, htest⟩ := (Option.any_eq_true _ _).1 found
  obtain ⟨distinct, apart, made⟩ := of_decide_eq_true htest
  obtain ⟨m, hm, -⟩ := @exists_parseAs .all { nesting := 20 } .gitGraph
    "gitGraph\ncommit id: \"c0\"\ncommit\ncommit id: \"x\"\n" (fun _ => true) (by decide +kernel)
  obtain ⟨-, -, honoured⟩ := generated_names_apart_iff hnames distinct
  exact ⟨names, m, hnames, hm, made, ((honoured m hm).1 apart).1⟩

/-- A task may give the id that the next one gets. -/
theorem exists_generated_name_given :
    ∃ names m, namesOf? { nesting := 20 } .gantt "gantt\nA : task2, 2024-01-01, 1d\nB : 1d\n" = some names ∧
      (written names).Nodup ∧ ¬ Apart names ∧
      parseAs .all { nesting := 20 } .gantt "gantt\nA : task2, 2024-01-01, 1d\nB : 1d\n" = .ok m ∧
      .duplicateId "task2" ∈ m.issues := by
  have found : (namesOf? { nesting := 20 } .gantt "gantt\nA : task2, 2024-01-01, 1d\nB : 1d\n").any
      (fun names => decide ((written names).Nodup ∧ ¬ Apart names)) = true := by
    decide +kernel
  obtain ⟨names, hnames, htest⟩ := (Option.any_eq_true _ _).1 found
  obtain ⟨distinct, given⟩ := of_decide_eq_true htest
  obtain ⟨m, hm, hissue⟩ := @exists_parseAs .all { nesting := 20 } .gantt
    "gantt\nA : task2, 2024-01-01, 1d\nB : 1d\n"
    (fun m => decide (.duplicateId "task2" ∈ m.issues)) (by decide +kernel)
  exact ⟨names, m, hnames, distinct, given, hm, of_decide_eq_true hissue⟩

end DiagramText
