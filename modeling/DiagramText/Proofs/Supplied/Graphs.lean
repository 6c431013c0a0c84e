import DiagramText.Architecture
import DiagramText.Er.Document
import DiagramText.Git.Document
import DiagramText.Proofs.Demand
import DiagramText.Proofs.Reading
import DiagramText.Requirement

/-!
# Graphs find what they read

The documents of schemas, requirements and architectures find what they read. Those of Git histories do
unless a cherry-pick names no commit: the grammar takes its options in any number, and so also without
an id, which the reading of a cherry-pick needs. Such a document is never read (`not_aimless_of_document`).
-/

namespace DiagramText

open Demand Reading

variable {statement : Tree → Prop} {t : Tree}

/-! ## Schemas -/

namespace Er

/-- What the statements of schemas are read for. -/
def demand : Demand := .all
  [.fits [["entity"], ["relationship"], ["direction"], ["title"], ["acc_title"], ["acc_descr"]],
    .group "entity" (.all [.needs ["name"], .list "attributes" (.needs ["type", "name"])]),
    .group "relationship"
      (.needs ["from", "to", "from_cardinality", "to_cardinality", "line", "label"])]

theorem supplied_attribute (h : t.has "type" = true ∧ t.has "name" = true) :
    Supplied (attributeOf t) := by
  simp [attributeOf, h]
  exact fun type _ name _ => supplied_mapM fun key _ => by simp

theorem supplied_statement (h : demand.Met statement t) : Supplied (statements.read t) := by
  obtain ⟨hfits, h⟩ := h
  refine supplied_read hfits ?_
  have attributes (entity : Tree)
      (h : ∀ line ∈ entity.list "attributes", line.has "type" = true ∧ line.has "name" = true) :
      Supplied ((entity.list "attributes").mapM attributeOf) :=
    supplied_mapM fun line hline => supplied_attribute (h line hline)
  simp [Met, Captions.shapes, Captions.shapes.accessibleShapes, cardinality] at h ⊢
  and_intros <;> grind [supplied_pure, supplied_complain]

theorem supplied_document (met : ∀ s ∈ t.list "statements", demand.Met statement s) :
    Supplied (read t) := by
  simpa [read] using supplied_readAll fun s hs => supplied_statement (met s hs)

end Er

/-! ## Requirements -/

namespace Requirement

/-- What the statements of requirement diagrams are read for. -/
def demand : Demand := .all
  [.fits [["requirement"], ["element"], ["relationship"], ["direction"], ["acc_title"],
      ["acc_descr"]],
    .group "requirement"
      (.all [.needs ["kind", "name"], .list "body" (.needs ["property", "value"])]),
    .group "element" (.all [.needs ["name"], .list "body" (.needs ["property"])]),
    .group "relationship" (.needs ["relation", "source", "target"])]

theorem supplied_setItem (h : t.has "property" = true ∧ t.has "value" = true) (item : Item) :
    Supplied (item.set t) := by
  simp [Item.set, h]
  intro property _
  split <;> simp [wordValue, h]

theorem supplied_setElement (h : t.has "property" = true) (element : Element) :
    Supplied (element.set t) := by
  simp [Element.set, h]
  intro property _
  split <;> simp

theorem supplied_statement (h : demand.Met statement t) : Supplied (statements.read t) := by
  obtain ⟨hfits, h⟩ := h
  refine supplied_read hfits ?_
  have items (block : Tree) (item : Item)
      (h : ∀ line ∈ block.list "body", line.has "property" = true ∧ line.has "value" = true) :
      Supplied ((block.list "body").foldlM Item.set item) :=
    supplied_foldlM (fun line hline item => supplied_setItem (h line hline) item) item
  have elements (block : Tree) (element : Element)
      (h : ∀ line ∈ block.list "body", line.has "property" = true) :
      Supplied ((block.list "body").foldlM Element.set element) :=
    supplied_foldlM (fun line hline element => supplied_setElement (h line hline) element) element
  simp [Met, Captions.shapes.accessibleShapes] at h ⊢
  and_intros <;> grind [supplied_pure, supplied_complain]

theorem supplied_apply (d : Diagram) (placed : Nat × Statement) : Supplied (d.apply placed) := by
  unfold Diagram.apply
  split <;> simp

theorem supplied_applyLink (d : Diagram) (placed : Nat × Statement) :
    Supplied (d.applyLink placed) := by
  unfold Diagram.applyLink
  split
  · split <;> simp
  · simp

theorem supplied_document (met : ∀ s ∈ t.list "statements", demand.Met statement s) :
    Supplied (read t) := by
  simp [read]
  refine ⟨supplied_readPlaced fun s hs => supplied_statement (met s hs), fun placed _ => ⟨?_, ?_⟩⟩
  · exact supplied_foldlM (fun placed _ d => supplied_apply d placed) _
  · exact fun d _ => supplied_foldlM (fun placed _ d => supplied_applyLink d placed) d

end Requirement

/-! ## Architectures -/

namespace Architecture

/-- What the statements of architecture diagrams are read for. -/
def demand : Demand := .all
  [.fits [["title"], ["acc_title"], ["acc_descr"], ["node"], ["edge"]],
    .group "node" (.needs ["kind", "id"]),
    .group "edge" (.needs ["source", "source_side", "target", "target_side"])]

theorem supplied_statement (h : demand.Met statement t) : Supplied (statements.read t) := by
  obtain ⟨hfits, h⟩ := h
  refine supplied_read hfits ?_
  simp [Met, Captions.shapes, Captions.shapes.accessibleShapes, terminal] at h ⊢
  grind

theorem supplied_apply (d : Diagram) (placed : Nat × Statement) : Supplied (d.apply placed) := by
  unfold Diagram.apply
  split <;> simp

theorem supplied_checkParent (d : Diagram) (placed : Nat × Statement) :
    Supplied (d.checkParent placed) := by
  unfold Diagram.checkParent
  split
  · split
    · simp
    · split <;> simp
  · simp

theorem supplied_applyEdge (d : Diagram) (placed : Nat × Statement) :
    Supplied (d.applyEdge placed) := by
  unfold Diagram.applyEdge
  split
  · split <;> simp
  · simp

theorem supplied_document (met : ∀ s ∈ t.list "statements", demand.Met statement s) :
    Supplied (read t) := by
  simp [read]
  refine ⟨supplied_readPlaced fun s hs => supplied_statement (met s hs), fun placed _ => ⟨?_, ?_⟩⟩
  · exact supplied_foldlM (fun placed _ d => supplied_apply d placed) _
  · refine fun d _ => ⟨supplied_forM fun placed _ => supplied_checkParent d placed, fun _ _ => ?_⟩
    exact supplied_foldlM (fun placed _ d => supplied_applyEdge d placed) d

end Architecture

/-! ## Git histories -/

namespace Git

/-- What the statements of Git histories are read for, but for the ids of cherry-picks. -/
def demand : Demand := .all
  [.fits [["commit"], ["branch"], ["checkout"], ["merge"], ["cherry_pick"], ["acc_title"],
      ["acc_descr"]],
    .among "cherry_pick" ["id", "parent", "tag"]]

/-- A statement is a cherry-pick that names no commit. -/
def Aimless (t : Tree) : Prop := t.has "cherry_pick" = true ∧ t.has "id" = false

theorem supplied_statement (h : demand.Met statement t) (haim : ¬ Aimless t) :
    Supplied (statements.read t) := by
  refine supplied_read h.1 ?_
  simp [Aimless, Captions.shapes.accessibleShapes] at haim ⊢
  exact haim

theorem supplied_direction : Supplied (direction t) := by
  unfold direction
  split
  · simp
  · split <;> simp

theorem supplied_applyAt (h : History) (placed : Nat × Statement) : Supplied (h.applyAt placed) := by
  unfold History.applyAt
  split
  split <;> simp

theorem supplied_document (met : ∀ s ∈ t.list "statements", demand.Met statement s)
    (haim : ∀ s ∈ t.list "statements", ¬ Aimless s) : Supplied (read t) := by
  simp [read, supplied_direction]
  intro direction _
  constructor
  · exact supplied_readPlaced fun s hs => supplied_statement (met s hs) (haim s hs)
  · exact fun placed _ => supplied_foldlM (fun placed _ h => supplied_applyAt h placed) _

/-- A cherry-pick that names no commit cannot be read. -/
theorem not_aimless_of_read (h : demand.Met statement t) {s : Statement}
    (hread : statements.read t = .ok s) : ¬ Aimless t := by
  rintro ⟨hpick, hid⟩
  have absent (field : String) (hne : field ∉ ["cherry_pick", "id", "parent", "tag"]) :
      t.has field = false := h.2.1.absent hpick hne
  have := exists_shape hread
  simp [absent, Captions.shapes.accessibleShapes, Tree.needString, Tree.needText,
    need_of_not_has t "id" hid, bind, Except.bind] at this

/-- A document with a cherry-pick that names no commit is not read. -/
theorem not_aimless_of_document (met : ∀ s ∈ t.list "statements", demand.Met statement s)
    {history : History} (hread : read t = .ok history) : ∀ s ∈ t.list "statements", ¬ Aimless s := by
  obtain ⟨direction, -, hread⟩ := bind_eq_ok.1 hread
  obtain ⟨placed, hplaced, -⟩ := bind_eq_ok.1 hread
  intro s hs
  obtain ⟨statement, hstatement⟩ := exists_of_readPlaced hplaced s hs
  exact not_aimless_of_read (met s hs) hstatement

end Git

end DiagramText
