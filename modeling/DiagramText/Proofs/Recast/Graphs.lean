import DiagramText.Architecture
import DiagramText.Er.Document
import DiagramText.Git.Document
import DiagramText.Proofs.Recast
import DiagramText.Requirement

/-!
# Graphs and histories from recast trees

For entity relationships, requirements, architectures and Git histories: a statement whose spans are changed
is read as it was (`recast_statement`), and so is a document (`recast_document`), if the texts that are read
are kept. The blocks of these kinds are the lines inside a statement, which are read one by one.
-/

namespace DiagramText

open Reading

variable {f : Token → Token} {t : Tree}

/-! ## Entity relationships -/

namespace Er

/-- The fields that hold statements or lines inside them. -/
def blocks : List String := ["statements", "entity", "attributes"]

theorem recast_attribute (h : t.Kept f blocks) :
    (attributeOf (t.map f)).toOption = (attributeOf t).toOption := by
  have hkeys : (((t.map f).getAll "key").mapM fun node =>
        (orComplain (Key.ofWord? (trim node.text)) node.offset (.unknownKey node.text) :
          Reading Fallacy Key)).toOption =
      ((t.getAll "key").mapM fun node =>
        (orComplain (Key.ofWord? (trim node.text)) node.offset (.unknownKey node.text) :
          Reading Fallacy Key)).toOption := by
    rw [Tree.getAll_map, List.mapM_map]
    refine toOption_mapM_congr fun node hnode => ?_
    simp [h.trim_text (show "key" ∉ blocks by decide) (Tree.mem_getAll.1 hnode)]
  simp [attributeOf, h.trimmed?_map, h.string?_map, blocks, hkeys]

theorem recast_statement (h : t.Kept f blocks) :
    (statements.read (t.map f)).toOption = (statements.read t).toOption := by
  refine toOption_read_map ?_
  simp [Captions.shapes, Captions.shapes.accessibleShapes, h.trimmed?_map, blocks]
  refine ⟨h.bind_tree? "entity" fun entity hs => ?_, h.bind_tree? "relationship" fun link hs => ?_, ?_⟩
  · simp [hs.trimmed?_map, hs.string?_map, hs.filled?_map, blocks,
      toOption_mapM_map fun line hline => recast_attribute (hs.of_mem_list hline)]
  · simp [cardinality, hs.trimmed?_map, blocks]
  · refine Option.bind_congr fun word _ => ?_
    cases Direction.ofWord word <;> rfl

theorem recast_document (h : t.Kept f blocks) : (read (t.map f)).toOption = (read t).toOption := by
  simp [read, toOption_readAll_map fun s hs => recast_statement (h.of_mem_list hs)]

end Er

/-! ## Requirements -/

namespace Requirement

/-- The fields that hold statements or lines inside them. -/
def blocks : List String := ["statements", "requirement", "body", "element"]

theorem recast_set_item (item : Item) (h : t.Kept f blocks) :
    (item.set (t.map f)).toOption = (item.set t).toOption := by
  simp [Item.set, h.trimmed?_map, blocks]
  refine Option.bind_congr fun property _ => ?_
  split <;> simp [wordValue, h.trimmed?_map, h.string?_map, blocks]

theorem recast_set_element (element : Element) (h : t.Kept f blocks) :
    (element.set (t.map f)).toOption = (element.set t).toOption := by
  simp [Element.set, h.trimmed?_map, h.string?_map, blocks]

theorem recast_statement (h : t.Kept f blocks) :
    (statements.read (t.map f)).toOption = (statements.read t).toOption := by
  refine toOption_read_map ?_
  simp [Captions.shapes.accessibleShapes, h.trimmed?_map, blocks]
  refine ⟨h.bind_tree? "requirement" fun block hs => ?_, h.bind_tree? "element" fun block hs => ?_,
    h.bind_tree? "relationship" fun link hs => ?_, ?_⟩
  · simp [hs.trimmed?_map, blocks,
      toOption_foldlM_map fun line hline item => recast_set_item item (hs.of_mem_list hline)]
  · simp [hs.trimmed?_map, blocks,
      toOption_foldlM_map fun line hline element => recast_set_element element (hs.of_mem_list hline)]
  · simp [hs.trimmed?_map, blocks]
  · refine Option.bind_congr fun word _ => ?_
    cases Direction.ofWord word <;> rfl

theorem toOption_apply (d : Diagram) (s : Statement) (offset offset' : Nat) :
    (d.apply (offset, s)).toOption = (d.apply (offset', s)).toOption := by
  cases s <;> simp [Diagram.apply]

theorem toOption_applyLink (d : Diagram) (s : Statement) (offset offset' : Nat) :
    (d.applyLink (offset, s)).toOption = (d.applyLink (offset', s)).toOption := by
  cases s with
  | link link =>
    simp only [Diagram.applyLink]
    split <;> rfl
  | _ => rfl

theorem recast_document (h : t.Kept f blocks) : (read (t.map f)).toOption = (read t).toOption := by
  rw [read, read, Tree.list_map]
  refine toOption_readPlaced_map (fun s hs => recast_statement (h.of_mem_list hs)) fun placed placed' e => ?_
  rw [toOption_bind, toOption_bind, toOption_foldlM_placed toOption_apply e]
  exact Option.bind_congr fun d _ => toOption_foldlM_placed toOption_applyLink e d

end Requirement

/-! ## Architectures -/

namespace Architecture

theorem recast_statement (h : t.Kept f ["statements"]) :
    (statements.read (t.map f)).toOption = (statements.read t).toOption := by
  refine toOption_read_map ?_
  simp [Captions.shapes, Captions.shapes.accessibleShapes, h.trimmed?_map]
  exact ⟨h.bind_tree? "node" fun node hs => by simp [hs.trimmed?_map, hs.filled?_map, hs.string?_map],
    h.bind_tree? "edge" fun edge hs => by simp [terminal, hs.trimmed?_map, hs.string?_map]⟩

theorem toOption_apply (d : Diagram) (s : Statement) (offset offset' : Nat) :
    (d.apply (offset, s)).toOption = (d.apply (offset', s)).toOption := by
  cases s <;> simp [Diagram.apply]

theorem toOption_checkParent (d : Diagram) (s : Statement) (offset offset' : Nat) :
    (d.checkParent (offset, s)).toOption = (d.checkParent (offset', s)).toOption := by
  cases s with
  | node node =>
    simp only [Diagram.checkParent]
    split
    · rfl
    · split <;> simp
  | _ => rfl

theorem toOption_applyEdge (d : Diagram) (s : Statement) (offset offset' : Nat) :
    (d.applyEdge (offset, s)).toOption = (d.applyEdge (offset', s)).toOption := by
  cases s with
  | edge edge =>
    simp only [Diagram.applyEdge]
    split <;> rfl
  | _ => rfl

theorem recast_document (h : t.Kept f ["statements"]) :
    (read (t.map f)).toOption = (read t).toOption := by
  rw [read, read, Tree.list_map]
  refine toOption_readPlaced_map (fun s hs => recast_statement (h.of_mem_list hs)) fun placed placed' e => ?_
  rw [toOption_bind, toOption_bind, toOption_foldlM_placed toOption_apply e]
  refine Option.bind_congr fun d _ => ?_
  rw [toOption_bind, toOption_bind, toOption_forM_placed (toOption_checkParent d) e]
  exact Option.bind_congr fun _ _ => toOption_foldlM_placed toOption_applyEdge e d

end Architecture

/-! ## Git histories -/

namespace Git

theorem tags_map (h : t.Kept f ["statements"]) : tags (t.map f) = tags t := by
  simpa only [List.map_map, Function.comp_def, tags] using
    congrArg (List.map unquote) (h.texts_map (show "tag" ∉ ["statements"] by decide) (by decide))

theorem details_map (h : t.Kept f ["statements"]) : details (t.map f) = details t := by
  simp [details, h.string?_map, h.filled?_map, tags_map h]

theorem recast_statement (h : t.Kept f ["statements"]) :
    (statements.read (t.map f)).toOption = (statements.read t).toOption := by
  refine toOption_read_map ?_
  simp [Captions.shapes.accessibleShapes, h.trimmed?_map, h.filled?_map, h.string?_map, details_map h, tags_map h]

theorem recast_direction (h : t.Kept f ["statements"]) :
    (direction (t.map f)).toOption = (direction t).toOption := by
  rw [direction, h.text?_map (by decide) (by decide), direction]
  cases t.text? "direction" with
  | none => rfl
  | some word => simp only; cases Direction.ofWord word <;> rfl

theorem toOption_applyAt (history : History) (s : Statement) (offset offset' : Nat) :
    (history.applyAt (offset, s)).toOption = (history.applyAt (offset', s)).toOption := by
  rw [History.applyAt, History.applyAt]
  split <;> rfl

theorem recast_document (h : t.Kept f ["statements"]) :
    (read (t.map f)).toOption = (read t).toOption := by
  rw [read, read, toOption_bind, toOption_bind, recast_direction h, Tree.list_map]
  refine Option.bind_congr fun direction _ => ?_
  exact toOption_readPlaced_map (fun s hs => recast_statement (h.of_mem_list hs)) fun placed placed' e =>
    toOption_foldlM_placed toOption_applyAt e _

end Git

end DiagramText
