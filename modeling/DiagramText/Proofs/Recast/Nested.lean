import DiagramText.ClassDiagram.Document
import DiagramText.Flowchart.Document
import DiagramText.Proofs.Recast
import DiagramText.Sequence.Document
import DiagramText.StateDiagram.Document

/-!
# Nested statements from recast trees

Flowcharts, sequence diagrams, class diagrams and state diagrams have statements with bodies of further
statements. A change of spans leaves the depth of the tree as it is, which their readers count down. So each
`recast_statement` takes a reader of bodies that is assumed to read changed bodies as it reads the bodies,
and `recast_readBody` is the induction on the depth.
-/

namespace DiagramText

open Reading

variable {f : Token → Token} {t : Tree}

/-! ## Flowcharts -/

namespace Flowchart

/-- The fields that hold statements or what contains them, and the links of a chain. -/
def blocks : List String := ["statements", "subgraph", "body", "links"]

theorem recast_mention (h : t.Kept f blocks) : (mentionOf (t.map f)).toOption = (mentionOf t).toOption := by
  simp only [mentionOf, h.text?_map (show "shape_open" ∉ blocks by decide) (by decide),
    h.text?_map (show "shape_close" ∉ blocks by decide) (by decide)]
  split <;> simp [h.trimmed?_map, h.filled?_map, h.string?_map, blocks]

theorem recast_group (h : t.Kept f blocks) (field : String) :
    (groupOf (t.map f) field).toOption = (groupOf t field).toOption := by
  simp [groupOf]
  refine h.bind_tree? field fun group hs => ?_
  simp [toOption_mapM_map fun m hm => recast_mention (hs.of_mem_trees hm)]

theorem recast_link (h : t.Kept f blocks) : (linkOf (t.map f)).toOption = (linkOf t).toOption := by
  simp [linkOf, h.trimmed?_map, h.filled?_map, h.string?_map, blocks, recast_group h]

theorem recast_style (h : t.Kept f blocks) : (styleOf (t.map f)).toOption = (styleOf t).toOption := by
  simp [styleOf, h.trimmed?_map, blocks]

theorem recast_click (h : t.Kept f blocks) : (clickOf (t.map f)).toOption = (clickOf t).toOption := by
  simp only [clickOf, h.string?_map (show "url" ∉ blocks by decide)]
  split <;> simp [h.trimmed?_map, h.filled?_map, h.string?_map, blocks]

theorem recast_direction (h : t.Kept f blocks) :
    (directionOf (t.map f)).toOption = (directionOf t).toOption := by
  simp [directionOf, h.trimmed?_map, blocks]

theorem recast_indexes (h : t.Kept f blocks) :
    (((t.map f).getAll "index").mapM indexOf).toOption = ((t.getAll "index").mapM indexOf).toOption := by
  rw [Tree.getAll_map, List.mapM_map]
  refine toOption_mapM_congr fun node hnode => ?_
  simp [indexOf, h.text (show "index" ∉ blocks by decide) (by decide) (Tree.mem_getAll.1 hnode)]

theorem recast_statement {body : List Tree → Reading Fallacy (List Statement)}
    (hbody : ∀ trees, (∀ s ∈ trees, s.Kept f blocks) →
      (body (trees.map (Tree.map f))).toOption = (body trees).toOption)
    (h : t.Kept f blocks) :
    ((statements body).read (t.map f)).toOption = ((statements body).read t).toOption := by
  refine toOption_read_map ?_
  simp [Captions.shapes.accessibleShapes, h.trimmed?_map, blocks, recast_group h]
  refine ⟨h.bind_tree? "chain" fun chain hs => ?_, h.bind_tree? "subgraph" fun s hs => ?_,
    h.bind_tree? "direction_statement" fun d hs => ?_, h.bind_tree? "class_def" fun d hs => ?_,
    h.bind_tree? "class_statement" fun s hs => ?_, h.bind_tree? "style_statement" fun s hs => ?_,
    h.bind_tree? "link_style" fun s hs => ?_, h.bind_tree? "click" fun c hs => ?_⟩
  · simp [recast_group hs, toOption_mapM_map fun link hlink => recast_link (hs.of_mem_list hlink)]
  · simp [hs.trimmed?_map, hs.filled?_map, blocks, hbody _ fun _ hin => hs.of_mem_list hin]
  · simp [recast_direction hs]
  · simp [recast_style hs, hs.texts_map, blocks, proseFields]
  · simp [hs.trimmed?_map, hs.texts_map, blocks, proseFields]
  · simp [recast_style hs, hs.trimmed?_map, blocks]
  · simp [recast_style hs, recast_indexes hs]
  · simp [recast_click hs]

theorem recast_readBody (depth : Nat) (trees : List Tree) (h : ∀ s ∈ trees, s.Kept f blocks) :
    (readBody depth (trees.map (Tree.map f))).toOption = (readBody depth trees).toOption := by
  induction depth generalizing trees with
  | zero => rfl
  | succ depth ih => exact toOption_readAll_map fun s hs => recast_statement ih (h s hs)

theorem recast_document (h : t.Kept f blocks) : (read (t.map f)).toOption = (read t).toOption := by
  simp [read, recast_direction h, h.filled?_map, blocks,
    recast_readBody t.height _ fun _ hs => h.of_mem_list hs]

end Flowchart

/-! ## Sequence diagrams -/

namespace Sequence

/-- The fields that hold statements or what contains them. -/
def blocks : List String := ["statements", "block", "body", "branches"]

theorem recast_blockKind (h : t.Kept f blocks) {field : String} (hfield : field ∉ blocks) :
    (blockKind (t.map f) field).toOption = (blockKind t field).toOption := by
  simp [blockKind, h.trimmed?_map hfield]

theorem recast_numbering (h : t.Kept f blocks) : (numbering (t.map f)).toOption = (numbering t).toOption := by
  rw [numbering, Tree.tree?_map, numbering]
  cases hn : t.tree? "autonumber" with
  | none => rfl
  | some n =>
    have hs := h.of_tree? hn
    simp [hs.trimmed?_map, hs.filled?_map, blocks]

theorem recast_statement {body : List Tree → Reading Fallacy (List Statement)}
    (hbody : ∀ trees, (∀ s ∈ trees, s.Kept f blocks) →
      (body (trees.map (Tree.map f))).toOption = (body trees).toOption)
    (h : t.Kept f blocks) :
    ((statements body).read (t.map f)).toOption = ((statements body).read t).toOption := by
  refine toOption_read_map ?_
  simp [Captions.shapes, Captions.shapes.accessibleShapes, h.trimmed?_map, blocks, recast_numbering h]
  refine ⟨h.bind_tree? "participant" fun p hs => ?_, h.bind_tree? "message" fun m hs => ?_,
    h.bind_tree? "activate" fun a hs => ?_, h.bind_tree? "deactivate" fun a hs => ?_,
    h.bind_tree? "note" fun n hs => ?_, h.bind_tree? "block" fun block hs => ?_⟩
  · simp [hs.trimmed?_map, hs.filled?_map, blocks]
  · simp [hs.trimmed?_map, hs.filled?_map, blocks]
  · simp [hs.trimmed?_map, blocks]
  · simp [hs.trimmed?_map, blocks]
  · simp [hs.trimmed?_map, hs.filled?_map, hs.texts_map, blocks, proseFields]
  · simp [recast_blockKind hs, hs.filled?_map, blocks, hbody _ fun _ hin => hs.of_mem_list hin]
    rw [toOption_mapM_map fun branch hmem => ?_]
    have hb := hs.of_mem_list hmem
    simp [recast_blockKind hb, hb.filled?_map, blocks, hbody _ fun _ hin => hb.of_mem_list hin]

theorem recast_readBody (depth : Nat) (trees : List Tree) (h : ∀ s ∈ trees, s.Kept f blocks) :
    (readBody depth (trees.map (Tree.map f))).toOption = (readBody depth trees).toOption := by
  induction depth generalizing trees with
  | zero => rfl
  | succ depth ih => exact toOption_readAll_map fun s hs => recast_statement ih (h s hs)

theorem recast_document (h : t.Kept f blocks) : (read (t.map f)).toOption = (read t).toOption := by
  simp [read, recast_readBody t.height _ fun _ hs => h.of_mem_list hs]

end Sequence

/-! ## Class diagrams -/

namespace ClassDiagram

/-- The fields that hold statements, members or what contains them. -/
def blocks : List String := ["statements", "namespace", "body", "class", "members"]

theorem recast_member (h : t.Kept f blocks) : (memberOf (t.map f)).toOption = (memberOf t).toOption := by
  simp [memberOf, h.trimmed?_map, blocks]

theorem recast_classNamed (h : t.Kept f blocks) :
    (classNamed (t.map f)).toOption = (classNamed t).toOption := by
  simp [classNamed, h.trimmed?_map, h.filled?_map, h.string?_map, blocks]

theorem recast_line (h : t.Kept f blocks) (c : Class) :
    (withLine c (t.map f)).toOption = (withLine c t).toOption := by
  rw [withLine, h.filled?_map (by decide), withLine]
  cases t.filled? "annotation" with
  | none => simp [recast_member h]
  | some text => rfl

theorem recast_relationship (h : t.Kept f blocks) :
    (relationshipOf (t.map f)).toOption = (relationshipOf t).toOption := by
  simp [relationshipOf]
  refine h.bind_tree? "operator" fun operator hs => ?_
  simp [h.trimmed?_map, h.string?_map, hs.trimmed?_map, hs.text?_map, blocks, proseFields]

theorem recast_click (h : t.Kept f blocks) : (clickOf (t.map f)).toOption = (clickOf t).toOption := by
  simp only [clickOf, h.string?_map (show "url" ∉ blocks by decide)]
  split <;> simp [h.trimmed?_map, h.filled?_map, h.string?_map, blocks]

theorem recast_statement {body : List Tree → Reading Fallacy (List Statement)}
    (hbody : ∀ trees, (∀ s ∈ trees, s.Kept f blocks) →
      (body (trees.map (Tree.map f))).toOption = (body trees).toOption)
    (h : t.Kept f blocks) :
    ((statements body).read (t.map f)).toOption = ((statements body).read t).toOption := by
  refine toOption_read_map ?_
  simp [Captions.shapes, Captions.shapes.accessibleShapes, h.trimmed?_map, blocks]
  refine ⟨h.bind_tree? "namespace" fun ns hs => ?_, h.bind_tree? "class" fun c hs => ?_,
    h.bind_tree? "annotate" fun a hs => ?_, h.bind_tree? "note" fun n hs => ?_,
    h.bind_tree? "click" fun c hs => ?_, ?_, h.bind_tree? "css_class_statement" fun s hs => ?_,
    h.bind_tree? "style_statement" fun s hs => ?_, h.bind_tree? "relation" fun r hs => ?_,
    h.bind_tree? "member_line" fun line hs => ?_, h.bind_tree? "reference" fun r hs => ?_⟩
  · simp [hs.trimmed?_map, blocks, hbody _ fun _ hin => hs.of_mem_list hin]
  · simp [recast_classNamed hs, toOption_foldlM_map fun line hline c => recast_line (hs.of_mem_list hline) c]
  · simp [hs.trimmed?_map, blocks]
  · simp [hs.trimmed?_map, hs.filled?_map, blocks]
  · simp [recast_click hs]
  · refine Option.bind_congr fun word _ => ?_
    cases Direction.ofWord word <;> rfl
  · simp [hs.trimmed?_map, blocks]
  · simp [hs.trimmed?_map, blocks]
  · simp [recast_relationship hs]
  · simp [recast_member hs, hs.trimmed?_map, blocks]
  · simp [recast_classNamed hs]

theorem recast_readBody (depth : Nat) (trees : List Tree) (h : ∀ s ∈ trees, s.Kept f blocks) :
    (readBody depth (trees.map (Tree.map f))).toOption = (readBody depth trees).toOption := by
  induction depth generalizing trees with
  | zero => rfl
  | succ depth ih => exact toOption_readAll_map fun s hs => recast_statement ih (h s hs)

theorem recast_document (h : t.Kept f blocks) : (read (t.map f)).toOption = (read t).toOption := by
  simp [read, recast_readBody t.height _ fun _ hs => h.of_mem_list hs]

end ClassDiagram

/-! ## State diagrams -/

namespace StateDiagram

/-- The fields that hold statements or what contains them; a note may go over several lines. -/
def blocks : List String := ["statements", "composite", "body", "note"]

theorem recast_mention (h : t.Kept f blocks) (field : String) :
    (mentionOf (t.map f) field).toOption = (mentionOf t field).toOption := by
  simp [mentionOf]
  exact h.bind_tree? field fun m hs => by simp [hs.trimmed?_map, hs.filled?_map, blocks]

theorem recast_statement {body : List Tree → Reading Fallacy (List Statement)}
    (hbody : ∀ trees, (∀ s ∈ trees, s.Kept f blocks) →
      (body (trees.map (Tree.map f))).toOption = (body trees).toOption)
    (h : t.Kept f blocks) :
    ((statements body).read (t.map f)).toOption = ((statements body).read t).toOption := by
  refine toOption_read_map ?_
  simp [Captions.shapes.accessibleShapes, h.trimmed?_map, blocks, recast_mention h]
  refine ⟨h.bind_tree? "composite" fun c hs => ?_, h.bind_tree? "stereotyped" fun s hs => ?_,
    h.bind_tree? "declaration" fun s hs => ?_, h.bind_tree? "note" fun n hs => ?_, ?_,
    h.bind_tree? "class_def" fun d hs => ?_, h.bind_tree? "class_statement" fun s hs => ?_,
    h.bind_tree? "transition" fun s hs => ?_, h.bind_tree? "description" fun s hs => ?_⟩
  · simp [hs.trimmed?_map, hs.string?_map, blocks, hbody _ fun _ hin => hs.of_mem_list hin]
  · simp [hs.trimmed?_map, blocks]
  · simp [hs.trimmed?_map, hs.filled?_map, hs.string?_map, blocks]
  · simp [hs.trimmed?_map, hs.filled?_map, blocks]
  · refine Option.bind_congr fun word _ => ?_
    cases Direction.ofWord word <;> rfl
  · simp [hs.trimmed?_map, blocks]
  · simp [hs.trimmed?_map, hs.texts_map, blocks, proseFields]
  · simp [hs.filled?_map, recast_mention hs, blocks]
  · simp [hs.trimmed?_map, blocks]

theorem recast_readBody (depth : Nat) (trees : List Tree) (h : ∀ s ∈ trees, s.Kept f blocks) :
    (readBody depth (trees.map (Tree.map f))).toOption = (readBody depth trees).toOption := by
  induction depth generalizing trees with
  | zero => rfl
  | succ depth ih => exact toOption_readAll_map fun s hs => recast_statement ih (h s hs)

theorem recast_document (h : t.Kept f blocks) : (read (t.map f)).toOption = (read t).toOption := by
  simp [read, recast_readBody t.height _ fun _ hs => h.of_mem_list hs]

end StateDiagram

end DiagramText
