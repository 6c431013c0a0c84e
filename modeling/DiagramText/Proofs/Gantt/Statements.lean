import DiagramText.Proofs.Gantt.Items
import DiagramText.Proofs.Supplied.Charts

/-!
# Statements of accepted plans

Every statement of an accepted document is read, unless it is a task whose data are malformed (`exists_readAll_iff`).
-/

namespace DiagramText.Gantt

open Peg Reading

/-- A statement of which the rest of a plan may be read: if it is a task, its data are not malformed. -/
def IsSound (s : Tree) : Prop :=
  ∀ task ∈ s.tree? "task", ∀ data ∈ task.text? "data", ¬ IsMalformed data

/-- What statements are read for, and that a task is nothing else. -/
def soleDemand : Demand := .both demand (.among "task" [])

theorem governs_soleDemand :
    (Demand.list "statements" soleDemand).governs .nothing grammar "statement" = true := by
  decide

variable {s task : Tree}

/-- The shape of a task. -/
def taskShape : List String × (Tree → Reading Fallacy Statement) :=
  (["task"], fun t => do return .task (← entry (← t.needGroup "task")))

/-- A statement with a task and nothing else is read as the task. -/
theorem read_task (sole : ∀ other, s.has other = true → other = "task") (htask : s.tree? "task" = some task) :
    statements.read s = (do return .task (← entry task)) := by
  have apart : ∀ signature ∈ statements.entries.dropLast.map (·.1), ∃ field ∈ signature, field ≠ "task" := by
    decide
  have others : statements.entries.dropLast.find? (fun e => e.1.all s.has) = none := by
    refine List.find?_eq_none.2 fun e mem fits => ?_
    obtain ⟨field, hfield, other⟩ := apart e.1 (List.mem_map_of_mem mem)
    exact other (sole field (List.all_eq_true.1 fits field hfield))
  have last : statements.entries = statements.entries.dropLast ++ [taskShape] := rfl
  have there : taskShape.1.all s.has = true := by simpa [taskShape] using Tree.has_of_tree? htask
  have found : (statements.entries.find? fun e => e.1.all s.has) = some taskShape := by
    rw [last, List.find?_append, others, Option.none_or]
    exact List.find?_cons_of_pos there
  have need : (s.needGroup "task" : Reading Fallacy Tree) = .ok task := (needGroup_eq_ok ..).2 htask
  refine (read_of_find? found).trans ?_
  show (s.needGroup "task" >>= fun task => do return .task (← entry task) : Reading Fallacy Statement) = _
  rw [need]
  rfl

theorem exists_action {click : Tree} (hfits : click.has "url" = true ∨ click.has "callback" = true)
    (hurl : click.has "url" = true → ∃ text, click.filled? "url" = some text) : ∃ a, action click = .ok a := by
  unfold action
  split
  · exact ⟨_, rfl⟩
  · rename_i hnone
    obtain ⟨callback, found⟩ := (exists_needText click "callback").2 (has_of_string?_none click "url" hfits hurl hnone)
    exact ⟨_, bind_eq_ok.2 ⟨callback, found, rfl⟩⟩

/-- A statement that is no task is read. -/
theorem exists_read_other {statement : Tree → Prop} (met : demand.Met statement s) (noTask : s.has "task" = false) :
    ∃ a, statements.read s = .ok a := by
  obtain ⟨hfits, ⟨hclick, -⟩⟩ := met
  have click : s.has "click" = true →
      ∃ click, (s.needGroup "click" : Reading Fallacy Tree) = .ok click ∧ ∃ a, action click = .ok a := by
    intro has
    obtain ⟨click, found, ⟨signature, mem, fits⟩, inked, -⟩ := hclick has
    refine ⟨click, (needGroup_eq_ok ..).2 found, exists_action ?_ inked⟩
    simp only [List.mem_cons, List.not_mem_nil, or_false] at mem
    obtain rfl | rfl := mem
    · exact .inl (by simpa using fits)
    · exact .inr (by simpa using fits)
  refine exists_read hfits ?_
  simp only [Captions.shapes, Captions.shapes.accessibleShapes, List.cons_append, List.nil_append,
    List.forall_mem_cons, List.all_cons, List.all_nil, Bool.and_true, bind_eq_ok, pure_eq_ok,
    exists_comm (α := Statement), exists_and_left, exists_eq', and_true, exists_needText, noTask]
  simpa using click

/-- A statement is read unless it is a task of malformed data. -/
theorem exists_read_iff {statement : Tree → Prop} (met : soleDemand.Met statement s) :
    (∃ a, statements.read s = .ok a) ↔ IsSound s := by
  obtain ⟨demanded, among⟩ := met
  cases has : s.has "task" with
  | false =>
    refine iff_of_true (exists_read_other demanded has) fun task found => ?_
    rw [Tree.has_of_tree? found] at has
    cases has
  | true =>
    have sole : ∀ other, s.has other = true → other = "task" := by simpa using among has
    obtain ⟨-, -, hgroup, -⟩ := demanded
    obtain ⟨task, htask, needs⟩ := hgroup has
    have fields : task.has "name" = true ∧ task.has "data" = true := by simpa using (Demand.met_needs ..).1 needs
    obtain ⟨name, hname⟩ := Option.isSome_iff_exists.1 (has_eq_isSome .. ▸ fields.1)
    obtain ⟨data, hdata⟩ := Option.isSome_iff_exists.1 (has_eq_isSome .. ▸ fields.2)
    have sound : IsSound s ↔ ¬ IsMalformed data := by
      simp [IsSound, htask, hdata]
    rw [sound, ← exists_entry_iff hname hdata, read_task sole htask]
    simp only [bind_eq_ok, pure_eq_ok, exists_comm (α := Statement), exists_and_left, exists_eq', and_true]

/-- The statements of an accepted document are read unless one of them is a task of malformed data. -/
theorem exists_readAll_iff {depth : Nat} {input : String} {t : Tree} (accepted : grammar.parse depth input = .ok t) :
    (∃ ss, statements.readAll (t.list "statements") = .ok ss) ↔ ∀ s ∈ t.list "statements", IsSound s := by
  have met := Demand.met_of_parse governs_soleDemand accepted 0
  have each : ∀ s ∈ t.list "statements", (∃ a, statements.read s = .ok a) ↔ IsSound s := fun s mem =>
    exists_read_iff (met s mem)
  rw [← forall₂_congr each]
  refine ⟨fun ⟨ss, h⟩ => exists_of_readAll h, fun read => ?_⟩
  generalize t.list "statements" = ts at read ⊢
  induction ts with
  | nil => exact ⟨[], rfl⟩
  | cons s ts ih =>
    obtain ⟨⟨a, ha⟩, later⟩ := List.forall_mem_cons.1 read
    obtain ⟨as, has⟩ := ih later
    exact ⟨a :: as, readAll_cons ha has⟩

end DiagramText.Gantt
