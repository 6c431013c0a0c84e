import DiagramText.Gantt.Document
import DiagramText.Info
import DiagramText.Journey
import DiagramText.Kanban
import DiagramText.Mindmap
import DiagramText.Packet
import DiagramText.Pie
import DiagramText.Proofs.Demand
import DiagramText.Proofs.Reading
import DiagramText.Quadrant
import DiagramText.Radar
import DiagramText.Sankey
import DiagramText.Timeline
import DiagramText.XyChart

/-!
# Charts and plans find what they read

For each kind of chart or plan there is a demand on its statements. It is enough for reading them
(`supplied_statement`), and so for reading a document of the kind (`supplied_document`). That its grammar
keeps the demand is not needed yet: the lemmas are about any trees.
-/

namespace DiagramText

open Demand Reading

variable {statement : Tree → Prop} {t : Tree}

/-! ## Pie charts -/

namespace Pie

/-- What the statements of pie charts are read for. -/
def demand : Demand := .all
  [.fits [["title"], ["acc_title"], ["acc_descr"], ["slice"]],
    .group "slice" (.needs ["label", "value"])]

theorem supplied_statement (h : demand.Met statement t) : Supplied (statements.read t) := by
  obtain ⟨hfits, h⟩ := h
  refine supplied_read hfits ?_
  simp [Met, Captions.shapes, Captions.shapes.accessibleShapes] at h ⊢
  grind

theorem supplied_document (met : ∀ s ∈ t.list "statements", demand.Met statement s) :
    Supplied (read t) := by
  simpa [read] using supplied_readAll fun s hs => supplied_statement (met s hs)

end Pie

/-! ## Sankey diagrams -/

namespace Sankey

/-- What the rows of Sankey diagrams are read for. -/
def demand : Demand := .needs ["source", "target", "value"]

theorem supplied_row (h : demand.Met statement t) : Supplied (rows.read t) := by
  refine supplied_read h ?_
  simp [demand] at h ⊢
  grind

theorem supplied_document (met : ∀ s ∈ t.list "statements", demand.Met statement s) :
    Supplied (read t) := by
  simpa [read] using supplied_readAll fun s hs => supplied_row (met s hs)

end Sankey

/-! ## User journeys -/

namespace Journey

/-- What the statements of journeys are read for. -/
def demand : Demand := .all
  [.fits [["title"], ["acc_title"], ["acc_descr"], ["section"], ["task"]],
    .group "task" (.needs ["name", "score"])]

theorem supplied_statement (h : demand.Met statement t) : Supplied (statements.read t) := by
  obtain ⟨hfits, h⟩ := h
  refine supplied_read hfits ?_
  simp [Met, Captions.shapes, Captions.shapes.accessibleShapes] at h ⊢
  grind

theorem supplied_document (met : ∀ s ∈ t.list "statements", demand.Met statement s) :
    Supplied (read t) := by
  simpa [read] using supplied_readAll fun s hs => supplied_statement (met s hs)

end Journey

/-! ## Timelines -/

namespace Timeline

/-- What the statements of timelines are read for. -/
def demand : Demand := .all
  [.fits [["title"], ["acc_title"], ["acc_descr"], ["section"], ["continuation"], ["period"]],
    .group "period" (.needs ["name"])]

theorem supplied_statement (h : demand.Met statement t) : Supplied (statements.read t) := by
  obtain ⟨hfits, h⟩ := h
  refine supplied_read hfits ?_
  simp [Met, Captions.shapes, Captions.shapes.accessibleShapes] at h ⊢
  grind

theorem supplied_apply (c : Chronicle) (placed : Nat × Statement) : Supplied (c.apply placed) := by
  obtain ⟨offset, _ | _ | _ | _⟩ := placed <;> simp [Chronicle.apply]

theorem supplied_document (met : ∀ s ∈ t.list "statements", demand.Met statement s) :
    Supplied (read t) := by
  simpa [read, supplied_foldlM fun placed _ c => supplied_apply c placed] using
    supplied_readPlaced fun s hs => supplied_statement (met s hs)

end Timeline

/-! ## Boards -/

namespace Kanban

/-- What the lines of boards are read for. -/
def demand : Demand := .all [.fits [["node"]], .group "node" .nothing]

theorem supplied_line (h : demand.Met statement t) : Supplied (entries.read t) := by
  obtain ⟨hfits, h⟩ := h
  refine supplied_read hfits ?_
  simp [Met] at h ⊢
  intro hnode
  refine ⟨h hnode, fun node _ => ?_⟩
  split <;> simp

theorem supplied_set (card : Card) (offset : Nat) (property : String × String) :
    Supplied (card.set offset property) := by
  unfold Card.set
  split <;> simp

theorem supplied_apply (state : Option Nat × Board) (line : Line) :
    Supplied (Board.apply state line) := by
  have card (id : String) : Supplied (line.entry.card id line.offset) := by
    simpa [Entry.card] using supplied_foldlM (fun property _ card => supplied_set card _ property) _
  obtain ⟨first, b⟩ := state
  simp [Board.apply, card]

theorem supplied_document (met : ∀ s ∈ t.list "lines", demand.Met statement s) :
    Supplied (read t) := by
  have lines := supplied_readAll fun s hs => supplied_line (met s hs)
  simpa [read, lines] using
    fun _ _ => supplied_foldlM (fun line _ state => supplied_apply state line) _

end Kanban

/-! ## Mind maps -/

namespace Mindmap

/-- What the lines of mind maps are read for. -/
def demand : Demand := .all
  [.fits [["node"], ["icon"], ["classes"]], .group "node" (.needs ["id"])]

theorem supplied_line (h : demand.Met statement t) : Supplied (statements.read t) := by
  obtain ⟨hfits, h⟩ := h
  refine supplied_read hfits ?_
  simp [Met] at h ⊢
  intro hnode
  obtain ⟨node, hgroup, hid⟩ := h hnode
  refine ⟨⟨node, hgroup⟩, fun node' hnode' => ?_⟩
  obtain rfl : node = node' := Option.some.inj (hgroup.symm.trans hnode')
  refine ⟨hid, fun id _ => ?_⟩
  split <;> simp

theorem supplied_apply (d : Draft) (line : Line) : Supplied (d.apply line) := by
  unfold Draft.apply
  split <;> simp

theorem supplied_document (met : ∀ s ∈ t.list "lines", demand.Met statement s) :
    Supplied (read t) := by
  have lines := supplied_readAll fun s hs => supplied_line (met s hs)
  simpa [read, lines] using
    fun _ _ => supplied_foldlM (fun line _ d => supplied_apply d line) _

end Mindmap

/-! ## Packets -/

namespace Packet

/-- What the statements of packets are read for. -/
def demand : Demand := .all
  [.fits [["title"], ["block"], ["acc_title"], ["acc_descr"]],
    .group "block" (.all [.needs ["label"], .fits [["count"], ["start"]], .inked "count"])]

theorem supplied_extent (hfits : t.has "count" = true ∨ t.has "start" = true)
    (hcount : t.has "count" = true → ∃ text, t.filled? "count" = some text) :
    Supplied (extent t) := by
  simp [extent]
  intro count hread
  split
  · simp
  · have hblank := filled?_of_number? t "count" hread
    have hstart : t.has "start" = true := hfits.resolve_left fun hhas => by simp_all
    simp [hstart]

theorem supplied_statement (h : demand.Met statement t) : Supplied (statements.read t) := by
  obtain ⟨hfits, h⟩ := h
  refine supplied_read hfits ?_
  simp [Met, Captions.shapes.accessibleShapes] at h ⊢
  grind [supplied_extent]

theorem supplied_apply (p : Layout) (placed : Nat × Statement) : Supplied (p.apply placed) := by
  unfold Layout.apply
  split
  · simp
  · split <;> simp

theorem supplied_document (met : ∀ s ∈ t.list "statements", demand.Met statement s) :
    Supplied (read t) := by
  simpa [read, supplied_foldlM fun placed _ p => supplied_apply p placed] using
    supplied_readPlaced fun s hs => supplied_statement (met s hs)

end Packet

/-! ## Quadrant charts -/

namespace Quadrant

/-- What the statements of quadrant charts are read for. -/
def demand : Demand := .all
  [.fits [["title"], ["acc_title"], ["acc_descr"], ["x_axis"], ["y_axis"], ["quadrant", "text"],
      ["point"], ["class_def"]],
    .group "x_axis" (.needs ["low"]), .group "y_axis" (.needs ["low"]),
    .group "point" (.needs ["name", "x", "y"]), .group "class_def" (.needs ["name"])]

theorem supplied_style : Supplied (style t) := by
  unfold style
  split <;> simp

theorem supplied_statement (h : demand.Met statement t) : Supplied (statements.read t) := by
  obtain ⟨hfits, h⟩ := h
  refine supplied_read hfits ?_
  simp [Met, Captions.shapes, Captions.shapes.accessibleShapes, axis, supplied_style] at h ⊢
  and_intros <;> grind

theorem supplied_checkClass (c : Chart) (placed : Nat × Statement) :
    Supplied (c.checkClass placed) := by
  unfold Chart.checkClass
  split
  · split <;> simp
  · simp

theorem supplied_document (met : ∀ s ∈ t.list "statements", demand.Met statement s) :
    Supplied (read t) := by
  simp [read]
  refine ⟨supplied_readPlaced fun s hs => supplied_statement (met s hs), fun placed _ => ?_⟩
  exact supplied_forM fun placed _ => supplied_checkClass _ placed

end Quadrant

/-! ## XY charts -/

namespace XyChart

/-- What the statements of XY charts are read for. -/
def demand : Demand :=
  .fits [["title"], ["x_axis"], ["y_axis"], ["series", "values"], ["acc_title"], ["acc_descr"]]

theorem supplied_range : Supplied (range t) := by
  simp [range]
  intro low _ high _
  split <;> simp

theorem supplied_statement (h : demand.Met statement t) : Supplied (statements.read t) := by
  have x : Supplied (xAxis t) := by
    unfold xAxis
    split <;> simp [supplied_range]
  have y : Supplied (yAxis t) := by
    unfold yAxis
    split <;> simp [supplied_range]
  refine supplied_read h ?_
  simp [Captions.shapes.accessibleShapes, x, y]
  grind

theorem supplied_document (met : ∀ s ∈ t.list "statements", demand.Met statement s) :
    Supplied (read t) := by
  simp [read]
  refine ⟨supplied_readPlaced fun s hs => supplied_statement (met s hs), fun placed _ => ?_⟩
  split <;> simp

end XyChart

/-! ## Radar charts -/

namespace Radar

/-- What the statements of radar charts are read for. -/
def demand : Demand := .all
  [.fits [["title"], ["axis"], ["curve"], ["option"], ["acc_title"], ["acc_descr"]],
    .groups "axis" (.needs ["id"]), .groups "curve" (.needs ["id"])]

theorem supplied_head : Supplied (head t) ↔ t.has "id" = true := by
  simp [head]

theorem supplied_points (curve : Tree) : Supplied (points curve) := by
  simp only [points]
  split
  · simp
  · simpa using fun pairs _ => supplied_mapM fun pair _ => by simp

theorem supplied_option (h : t.has "option" = true) : Supplied (option t) := by
  simp [option, h]
  intro name _
  split
  · simp
  · split <;> simp
  all_goals simp

theorem supplied_statement (h : demand.Met statement t) : Supplied (statements.read t) := by
  obtain ⟨hfits, axes, curves, -⟩ := h
  refine supplied_read hfits ?_
  simp [Captions.shapes.accessibleShapes]
  refine ⟨fun _ => supplied_mapM fun axis h => ?_, fun _ => supplied_mapM fun curve h => ?_,
    supplied_option⟩
  · simpa [supplied_head] using axes axis h
  · simpa [supplied_head, supplied_points] using curves curve h

theorem supplied_apply (c : Chart) (placed : Nat × Statement) : Supplied (c.apply placed) := by
  unfold Chart.apply
  split
  · simp
  · exact supplied_foldlM (fun axis _ c => by simp) c
  · simp
  · simp

theorem supplied_applyCurves (c : Chart) (placed : Nat × Statement) :
    Supplied (c.applyCurves placed) := by
  unfold Chart.applyCurves
  split
  · refine supplied_foldlM (fun curve _ c => ?_) c
    split <;> simp
  · simp

theorem supplied_document (met : ∀ s ∈ t.list "statements", demand.Met statement s) :
    Supplied (read t) := by
  simp [read]
  refine ⟨supplied_readPlaced fun s hs => supplied_statement (met s hs), fun placed _ => ⟨?_, ?_⟩⟩
  · exact supplied_foldlM (fun placed _ c => supplied_apply c placed) _
  · exact fun c _ => supplied_foldlM (fun placed _ c => supplied_applyCurves c placed) c

end Radar

/-! ## Gantt plans -/

namespace Gantt

/-- What the statements of Gantt plans are read for. -/
def demand : Demand := .all
  [.fits [["title"], ["acc_title"], ["acc_descr"], ["date_format"], ["axis_format"],
      ["tick_interval"], ["excludes"], ["includes"], ["today_marker"], ["weekday"],
      ["inclusive_end_dates"], ["top_axis"], ["section"], ["click"], ["task"]],
    .group "click" (.all [.fits [["url"], ["callback"]], .inked "url"]),
    .group "task" (.needs ["name", "data"])]

theorem supplied_action (hfits : t.has "url" = true ∨ t.has "callback" = true)
    (hurl : t.has "url" = true → ∃ text, t.filled? "url" = some text) : Supplied (action t) := by
  unfold action
  split
  · simp
  · rename_i hnone
    simp [has_of_string?_none t "url" hfits hurl hnone]

theorem supplied_statement (h : demand.Met statement t) : Supplied (statements.read t) := by
  obtain ⟨hfits, h⟩ := h
  refine supplied_read hfits ?_
  simp [Met, Captions.shapes, Captions.shapes.accessibleShapes, entry] at h ⊢
  and_intros <;> grind [supplied_action]

theorem supplied_checkTask (p : Plan) (placed : Task × Nat) : Supplied (p.checkTask placed) := by
  unfold Plan.checkTask
  split
  split <;> simp

theorem supplied_document (met : ∀ s ∈ t.list "statements", demand.Met statement s) :
    Supplied (read t) := by
  simp [read]
  refine ⟨supplied_readPlaced fun s hs => supplied_statement (met s hs), fun placed _ => ?_⟩
  exact supplied_forM fun placed _ => supplied_checkTask _ placed

end Gantt

/-! ## Notices -/

namespace Info

theorem supplied_document (t : Tree) : Supplied (read t) := by
  simp [read]

end Info

end DiagramText
