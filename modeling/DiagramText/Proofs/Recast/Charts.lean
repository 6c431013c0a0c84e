import DiagramText.Gantt.Document
import DiagramText.Info
import DiagramText.Journey
import DiagramText.Kanban
import DiagramText.Mindmap
import DiagramText.Packet
import DiagramText.Pie
import DiagramText.Proofs.Recast
import DiagramText.Quadrant
import DiagramText.Radar
import DiagramText.Sankey
import DiagramText.Timeline
import DiagramText.XyChart

/-!
# Charts and plans from recast trees

For each kind of chart or plan: a statement whose spans are changed is read as it was
(`recast_statement`), and so is a document (`recast_document`), if the texts that are read are kept.
-/

namespace DiagramText

open Reading

variable {f : Token → Token} {t : Tree}

/-! ## Pie charts -/

namespace Pie

theorem recast_statement (h : t.Kept f ["statements"]) :
    (statements.read (t.map f)).toOption = (statements.read t).toOption := by
  refine toOption_read_map ?_
  simp [Captions.shapes, Captions.shapes.accessibleShapes, h.trimmed?_map]
  exact h.bind_tree? "slice" fun slice hs => by simp [hs.trimmed?_map]

theorem recast_document (h : t.Kept f ["statements"]) :
    (read (t.map f)).toOption = (read t).toOption := by
  simp [read, h.filled?_map, toOption_readAll_map fun s hs => recast_statement (h.of_mem_list hs)]

end Pie

/-! ## Sankey diagrams -/

namespace Sankey

theorem recast_row (h : t.Kept f ["statements"]) :
    (rows.read (t.map f)).toOption = (rows.read t).toOption := by
  refine toOption_read_map ?_
  simp [h.trimmed?_map]

theorem recast_document (h : t.Kept f ["statements"]) :
    (read (t.map f)).toOption = (read t).toOption := by
  simp [read, toOption_readAll_map fun s hs => recast_row (h.of_mem_list hs)]

end Sankey

/-! ## User journeys -/

namespace Journey

theorem recast_statement (h : t.Kept f ["statements"]) :
    (statements.read (t.map f)).toOption = (statements.read t).toOption := by
  refine toOption_read_map ?_
  simp [Captions.shapes, Captions.shapes.accessibleShapes, h.trimmed?_map]
  exact h.bind_tree? "task" fun task hs => by simp [hs.trimmed?_map, hs.filled?_map]

theorem recast_document (h : t.Kept f ["statements"]) :
    (read (t.map f)).toOption = (read t).toOption := by
  simp [read, toOption_readAll_map fun s hs => recast_statement (h.of_mem_list hs)]

end Journey

/-! ## Timelines -/

namespace Timeline

theorem events_map (h : t.Kept f ["statements"]) : events (t.map f) = events t := by
  rw [events, h.trimmed_map (by decide), events]

theorem recast_statement (h : t.Kept f ["statements"]) :
    (statements.read (t.map f)).toOption = (statements.read t).toOption := by
  refine toOption_read_map ?_
  simp [Captions.shapes, Captions.shapes.accessibleShapes, h.trimmed?_map, events_map h]
  exact h.bind_tree? "period" fun period hs => by simp [hs.trimmed?_map, events_map hs]

theorem recast_document (h : t.Kept f ["statements"]) :
    (read (t.map f)).toOption = (read t).toOption := by
  rw [read, read, Tree.list_map]
  refine toOption_readPlaced_map (fun s hs => recast_statement (h.of_mem_list hs)) fun placed placed' e => ?_
  refine toOption_foldlM_placed (fun c s _ _ => ?_) e _
  cases s <;> simp [Chronicle.apply]

end Timeline

/-! ## Boards -/

namespace Kanban

theorem recast_line (h : t.Kept f ["lines"]) :
    (entries.read (t.map f)).toOption = (entries.read t).toOption := by
  refine toOption_read_map ?_
  simp
  refine h.bind_tree? "node" fun node hs => ?_
  simp [hs.filled?_map, hs.string?_map]
  cases node.filled? "metadata" <;> simp

theorem toOption_set (card : Card) (property : String × String) (offset offset' : Nat) :
    (card.set offset property).toOption = (card.set offset' property).toOption := by
  unfold Card.set
  split <;> simp

theorem toOption_card (e : Entry) (key : String) (offset offset' : Nat) :
    (e.card key offset).toOption = (e.card key offset').toOption := by
  have hloop (blank : Card) : (e.metadata.foldlM (Card.set · offset) blank).toOption =
      (e.metadata.foldlM (Card.set · offset') blank).toOption :=
    @toOption_foldlM_alike _ _ _ _ id (Card.set · offset) (Card.set · offset')
      (fun card property _ (e : property = _) => e ▸ toOption_set card property offset offset') _ _ rfl blank
  simp [Entry.card, hloop]

/-- What a line says, its place aside. -/
def Line.gist (line : Line) : Nat × Nat × Entry := (line.number, line.indent, line.entry)

theorem toOption_apply (state : Option Nat × Board) {line line' : Line} (h : line.gist = line'.gist) :
    (Board.apply state line).toOption = (Board.apply state line').toOption := by
  obtain ⟨first, b⟩ := state
  obtain ⟨offset, number, indent, entry⟩ := line
  obtain ⟨offset', number', indent', entry'⟩ := line'
  obtain ⟨rfl, rfl, rfl⟩ : number = number' ∧ indent = indent' ∧ entry = entry' := by
    simpa [Line.gist] using h
  simp only [Board.apply, toOption_ite, toOption_bind, toOption_card entry _ offset offset']
  rfl

theorem recast_document (h : t.Kept f ["lines"]) : (read (t.map f)).toOption = (read t).toOption := by
  simp [read, toOption_readAll_map fun s hs => recast_line (h.of_mem_list hs)]
  refine Option.bind_congr fun entries _ => congrArg (Option.map Prod.snd) ?_
  refine toOption_foldlM_alike (fun state _ _ => toOption_apply state) ?_ _
  refine List.ext_getElem (by simp) fun i _ hi => ?_
  have hmem : i < (t.list "lines").length := by
    simp at hi
    omega
  simp [Line.gist, (h.of_mem_list (List.getElem_mem hmem)).text?_map, proseFields]

end Kanban

/-! ## Mind maps -/

namespace Mindmap

theorem recast_line (h : t.Kept f ["lines"]) :
    (statements.read (t.map f)).toOption = (statements.read t).toOption := by
  refine toOption_read_map ?_
  simp [h.trimmed?_map]
  refine h.bind_tree? "node" fun node hs => ?_
  simp [hs.trimmed?_map, hs.string?_map, hs.text?_map, proseFields]
  cases node.text? "shape" <;> simp

/-- What a line says, its place aside. -/
def Line.gist (line : Line) : Nat × Statement := (line.indent, line.statement)

theorem toOption_apply (d : Draft) {line line' : Line} (h : line.gist = line'.gist) :
    (d.apply line).toOption = (d.apply line').toOption := by
  obtain ⟨offset, indent, statement⟩ := line
  obtain ⟨offset', indent', statement'⟩ := line'
  obtain ⟨rfl, rfl⟩ : indent = indent' ∧ statement = statement' := by simpa [Line.gist] using h
  cases statement <;> simp [Draft.apply]

theorem recast_document (h : t.Kept f ["lines"]) : (read (t.map f)).toOption = (read t).toOption := by
  simp [read, toOption_readAll_map fun s hs => recast_line (h.of_mem_list hs)]
  refine Option.bind_congr fun statements _ => congrArg (Option.map Draft.map) ?_
  refine toOption_foldlM_alike (fun d _ _ => toOption_apply d) ?_ _
  refine List.ext_getElem (by simp) fun i _ hi => ?_
  have hmem : i < (t.list "lines").length := by
    simp at hi
    omega
  simp [Line.gist, (h.of_mem_list (List.getElem_mem hmem)).text?_map, proseFields]

end Mindmap

/-! ## Packets -/

namespace Packet

theorem recast_statement (h : t.Kept f ["statements"]) :
    (statements.read (t.map f)).toOption = (statements.read t).toOption := by
  refine toOption_read_map ?_
  simp [Captions.shapes.accessibleShapes, h.trimmed?_map]
  refine h.bind_tree? "block" fun block hs => ?_
  have hextent : (extent (block.map f)).toOption = (extent block).toOption := by
    simp [extent, hs.trimmed?_map, hs.filled?_map]
    refine Option.bind_congr fun count _ => ?_
    cases count <;> simp [hs.trimmed?_map, hs.filled?_map]
  simp [hextent, hs.trimmed?_map]

theorem recast_document (h : t.Kept f ["statements"]) :
    (read (t.map f)).toOption = (read t).toOption := by
  rw [read, read, Tree.list_map]
  refine toOption_readPlaced_map (fun s hs => recast_statement (h.of_mem_list hs)) fun placed placed' e => ?_
  refine toOption_foldlM_placed (fun p s offset offset' => ?_) e _
  cases s with
  | caption caption => rfl
  | block extent label =>
    simp only [Layout.apply]
    split <;> simp

end Packet

/-! ## Quadrant charts -/

namespace Quadrant

theorem recast_statement (h : t.Kept f ["statements"]) :
    (statements.read (t.map f)).toOption = (statements.read t).toOption := by
  have haxis (field : String) : (axis (t.map f) field).toOption = (axis t field).toOption := by
    simp [axis]
    exact h.bind_tree? field fun a hs => by simp [hs.trimmed?_map, hs.string?_map]
  have hstyle {g : Tree} (hs : g.Kept f ["statements"]) : (style (g.map f)).toOption = (style g).toOption := by
    simp only [style, hs.filled?_map (show "style" ∉ ["statements"] by decide)]
    split <;> simp
  refine toOption_read_map ?_
  simp [Captions.shapes, Captions.shapes.accessibleShapes, h.trimmed?_map, haxis]
  exact ⟨h.bind_tree? "point" fun point hs => by simp [hs.trimmed?_map, hs.filled?_map, hstyle hs],
    h.bind_tree? "class_def" fun definition hs => by simp [hs.trimmed?_map, hstyle hs]⟩

theorem recast_document (h : t.Kept f ["statements"]) :
    (read (t.map f)).toOption = (read t).toOption := by
  rw [read, read, Tree.list_map]
  refine toOption_readPlaced_map (fun s hs => recast_statement (h.of_mem_list hs)) fun placed placed' e => ?_
  simp only [toOption_bind, e]
  rw [toOption_forM_placed (fun s offset offset' => ?_) e]
  unfold Chart.checkClass
  cases s with
  | point p => simp only; split <;> rfl
  | _ => rfl

end Quadrant

/-! ## XY charts -/

namespace XyChart

theorem recast_range (h : t.Kept f ["statements"]) : (range (t.map f)).toOption = (range t).toOption := by
  simp [range, h.trimmed?_map, h.filled?_map]
  refine Option.bind_congr fun low _ => Option.bind_congr fun high _ => ?_
  cases low <;> cases high <;> simp

theorem recast_xAxis (h : t.Kept f ["statements"]) : (xAxis (t.map f)).toOption = (xAxis t).toOption := by
  rw [xAxis, Tree.tree?_map, xAxis]
  cases haxis : t.tree? "x_axis" with
  | none => rfl
  | some axis =>
    have hs := h.of_tree? haxis
    have hcategories : ((axis.map f).getAll "category").map (fun node => unquote (trim node.text)) =
        (axis.getAll "category").map fun node => unquote (trim node.text) := by
      simpa only [List.map_map, Function.comp_def] using
        congrArg (List.map unquote) (hs.trimmed_map (show "category" ∉ ["statements"] by decide))
    simp [hs.string?_map, recast_range hs, hcategories]

theorem recast_yAxis (h : t.Kept f ["statements"]) : (yAxis (t.map f)).toOption = (yAxis t).toOption := by
  rw [yAxis, Tree.tree?_map, yAxis]
  cases haxis : t.tree? "y_axis" with
  | none => rfl
  | some axis =>
    have hs := h.of_tree? haxis
    simp [hs.string?_map, recast_range hs]

theorem recast_statement (h : t.Kept f ["statements"]) :
    (statements.read (t.map f)).toOption = (statements.read t).toOption := by
  refine toOption_read_map ?_
  simp [Captions.shapes.accessibleShapes, h.trimmed?_map, h.string?_map, recast_xAxis h, recast_yAxis h]

theorem recast_document (h : t.Kept f ["statements"]) :
    (read (t.map f)).toOption = (read t).toOption := by
  rw [read, read, Tree.list_map, h.text?_map (by decide) (by decide)]
  refine toOption_readPlaced_map (fun s hs => recast_statement (h.of_mem_list hs)) fun placed placed' e => ?_
  simp only [e]
  split <;> rfl

end XyChart

/-! ## Radar charts -/

namespace Radar

theorem recast_head (h : t.Kept f ["statements"]) : (head (t.map f)).toOption = (head t).toOption := by
  simp [head, h.trimmed?_map, h.string?_map]

theorem recast_points (h : t.Kept f ["statements"]) : (points (t.map f)).toOption = (points t).toOption := by
  rw [points, h.filled?_map (by decide), points]
  cases numberList? ((t.filled? "values").getD "") with
  | some values => rfl
  | none =>
    simp
    exact Option.bind_congr fun pairs _ => congrArg _ (toOption_mapM_congr fun pair _ => by simp)

theorem recast_option (h : t.Kept f ["statements"]) : (option (t.map f)).toOption = (option t).toOption := by
  simp only [option, toOption_bind, toOption_needText, h.trimmed?_map (show "option" ∉ ["statements"] by decide),
    h.filled?_map (show "value" ∉ ["statements"] by decide)]
  refine Option.bind_congr fun name _ => ?_
  split
  · rfl
  · split <;> simp
  all_goals simp

theorem recast_statement (h : t.Kept f ["statements"]) :
    (statements.read (t.map f)).toOption = (statements.read t).toOption := by
  refine toOption_read_map ?_
  simp [Captions.shapes.accessibleShapes, h.trimmed?_map, recast_option h]
  exact ⟨congrArg _ (toOption_mapM_congr fun axis ha => by simp [recast_head (h.of_mem_trees ha)]),
    congrArg _ (toOption_mapM_congr fun curve hc => by
      simp [recast_head (h.of_mem_trees hc), recast_points (h.of_mem_trees hc)])⟩

theorem toOption_apply (c : Chart) (s : Statement) (offset offset' : Nat) :
    (c.apply (offset, s)).toOption = (c.apply (offset', s)).toOption := by
  cases s with
  | axes axes =>
    refine @toOption_foldlM_alike _ _ _ _ id _ _ (fun c axis axis' e => ?_) _ _ rfl c
    obtain rfl : axis = axis' := e
    simp
  | caption caption => rfl
  | curves curves => rfl
  | option change => rfl

theorem toOption_applyCurves (c : Chart) (s : Statement) (offset offset' : Nat) :
    (c.applyCurves (offset, s)).toOption = (c.applyCurves (offset', s)).toOption := by
  cases s with
  | curves curves =>
    refine @toOption_foldlM_alike _ _ _ _ id _ _ (fun c curve curve' e => ?_) _ _ rfl c
    obtain rfl : curve = curve' := e
    split <;> rfl
  | caption caption => rfl
  | axes axes => rfl
  | option change => rfl

theorem recast_document (h : t.Kept f ["statements"]) :
    (read (t.map f)).toOption = (read t).toOption := by
  rw [read, read, Tree.list_map]
  refine toOption_readPlaced_map (fun s hs => recast_statement (h.of_mem_list hs)) fun placed placed' e => ?_
  rw [toOption_bind, toOption_bind, toOption_foldlM_placed toOption_apply e]
  exact Option.bind_congr fun c _ => toOption_foldlM_placed toOption_applyCurves e c

end Radar

/-! ## Gantt plans -/

namespace Gantt

theorem recast_entry (h : t.Kept f ["statements"]) : (entry (t.map f)).toOption = (entry t).toOption := by
  simp [entry, h.trimmed?_map]

theorem recast_action (h : t.Kept f ["statements"]) : (action (t.map f)).toOption = (action t).toOption := by
  rw [action, h.string?_map (by decide), action]
  cases t.string? "url" <;> simp [h.trimmed?_map, h.filled?_map]

theorem recast_statement (h : t.Kept f ["statements"]) :
    (statements.read (t.map f)).toOption = (statements.read t).toOption := by
  refine toOption_read_map ?_
  simp [Captions.shapes, Captions.shapes.accessibleShapes, h.trimmed?_map]
  exact ⟨h.bind_tree? "click" fun click hs => by
      simp [recast_action hs, hs.texts_map (show "target" ∉ ["statements"] by decide) (by decide)],
    h.bind_tree? "task" fun task hs => by simp [recast_entry hs]⟩

/-- Whether the statement is a task. -/
def Statement.isTask : Statement → Bool
  | .task _ => true
  | _ => false

theorem length_taskOffsets (placed : List (Nat × Statement)) :
    (placed.filterMap taskOffset?).length = (placed.map (·.2)).countP Statement.isTask := by
  induction placed with
  | nil => rfl
  | cons first placed ih =>
    obtain ⟨offset, s⟩ := first
    rw [List.filterMap_cons, List.map_cons, List.countP_cons, ← ih]
    cases s <;> simp [taskOffset?, Statement.isTask]

theorem toOption_checkTask (p : Plan) (task task' : Task × Nat) (e : task.1 = task'.1) :
    (p.checkTask task).toOption = (p.checkTask task').toOption := by
  obtain ⟨task, offset⟩ := task
  obtain ⟨_, offset'⟩ := task'
  obtain rfl : task = _ := e
  rw [Plan.checkTask, Plan.checkTask]
  split <;> rfl

theorem recast_document (h : t.Kept f ["statements"]) :
    (read (t.map f)).toOption = (read t).toOption := by
  rw [read, read, Tree.list_map]
  refine toOption_readPlaced_map (fun s hs => recast_statement (h.of_mem_list hs)) fun placed placed' e => ?_
  simp only [toOption_bind, e]
  rw [@toOption_forM_alike _ _ _ Prod.fst _ (toOption_checkTask _)]
  exact List.ext_getElem (by simp [length_taskOffsets, e]) fun i _ _ => by simp

end Gantt

/-! ## Information diagrams -/

theorem Info.recast_document : (Info.read (t.map f)).toOption = (Info.read t).toOption := by
  simp [Info.read]

end DiagramText
