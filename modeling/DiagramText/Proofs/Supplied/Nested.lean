import DiagramText.ClassDiagram.Document
import DiagramText.Flowchart.Document
import DiagramText.Proofs.Demand
import DiagramText.Proofs.Reading
import DiagramText.Sequence.Document
import DiagramText.StateDiagram.Document

/-!
# Nested statements find what they read

Flowcharts, sequence diagrams, state diagrams and class diagrams have statements with bodies of further
statements. Their readers count down the depth of the tree, so that a statement is read with a reader of
bodies that is a level shallower. Accordingly each `supplied_statement` takes such a reader with what it
is assumed to do on the statements of a body, and `supplied_readBody` is the induction on the depth.

In class diagrams the grammar admits an annotation without a text among the members of a class, where the
reading takes the line for a member that it does not have. So classes are supplied up to such lines
(`Unmarked`), and no document with one is read (`marked_of_document`).
-/

namespace DiagramText

open Demand Reading

variable {inner : Tree → Prop} {t : Tree}

/-! ## Flowcharts -/

namespace Flowchart

/-- What groups of nodes are read for. -/
def groupDemand : Demand := .groups "member" (.needs ["id"])

/-- What the statements of flowcharts are read for. -/
def demand : Demand := .all
  [.fits [["nodes"], ["chain"], ["subgraph"], ["direction_statement"], ["class_def"],
      ["class_statement"], ["style_statement"], ["link_style"], ["click"], ["acc_title"],
      ["acc_descr"]],
    .group "nodes" groupDemand,
    .group "chain" (.all
      [.needs ["head"], .group "head" groupDemand,
        .list "links" (.all [.needs ["arrow", "target"], .group "target" groupDemand])]),
    .group "subgraph" (.all [.needs ["subgraph_title"], .body "body"]),
    .group "direction_statement" (.needs ["direction"]),
    .group "class_def" (.needs ["style"]),
    .group "class_statement" (.needs ["class_name"]),
    .group "style_statement" (.needs ["target_id", "style"]),
    .group "link_style" .nothing,
    .group "click" (.all [.needs ["target_id"], .fits [["url"], ["callback"]], .inked "url"])]

theorem supplied_mention (h : t.has "id" = true) : Supplied (mentionOf t) := by
  simp only [mentionOf]
  split <;> simp [h]

theorem supplied_group {field : String}
    (h : ∃ group, t.tree? field = some group ∧ groupDemand.Met inner group) :
    Supplied (groupOf t field) := by
  obtain ⟨group, hgroup, members⟩ := h
  simp [groupOf, hgroup]
  exact supplied_mapM fun m hm => supplied_mention (by simpa using members m hm)

theorem supplied_link (h : t.has "arrow" = true ∧ t.has "target" = true)
    (target : t.has "target" = true → ∃ group, t.tree? "target" = some group ∧
      groupDemand.Met inner group) : Supplied (linkOf t) := by
  simp [linkOf, h.1, supplied_group (target h.2)]

theorem supplied_style (h : t.has "style" = true) : Supplied (styleOf t) := by
  simp [styleOf, h]

theorem supplied_click (h : t.has "target_id" = true)
    (hfits : t.has "url" = true ∨ t.has "callback" = true)
    (hurl : t.has "url" = true → ∃ text, t.filled? "url" = some text) : Supplied (clickOf t) := by
  unfold clickOf
  split
  · simp [h]
  · rename_i hnone
    simp [h, has_of_string?_none t "url" hfits hurl hnone]

theorem supplied_direction (h : t.has "direction" = true) : Supplied (directionOf t) := by
  simp [directionOf, h]
  intro word _
  split <;> simp [Cause.isShapeFault]

theorem supplied_statement {body : List Tree → Reading Fallacy (List Statement)}
    (hbody : ∀ trees, (∀ s ∈ trees, inner s) → Supplied (body trees)) (h : demand.Met inner t) :
    Supplied ((statements body).read t) := by
  obtain ⟨hfits, h⟩ := h
  refine supplied_read hfits ?_
  have group (t : Tree) (field : String)
      (h : ∃ group, t.tree? field = some group ∧ groupDemand.Met inner group) :
      Supplied (groupOf t field) := supplied_group h
  have links (chain : Tree) (h : ∀ link ∈ chain.list "links",
      (link.has "arrow" = true ∧ link.has "target" = true) ∧ (link.has "target" = true →
        ∃ group, link.tree? "target" = some group ∧ groupDemand.Met inner group)) :
      Supplied ((chain.list "links").mapM linkOf) :=
    supplied_mapM fun link hlink => supplied_link (h link hlink).1 (h link hlink).2
  have indexes (nodes : List DiagramText.Node) : Supplied (nodes.mapM indexOf) :=
    supplied_mapM fun node _ => by simp [indexOf]
  simp [Met, Captions.shapes.accessibleShapes, indexes] at h ⊢
  and_intros <;>
    grind [supplied_style, supplied_click, supplied_direction]

theorem supplied_readBody (depth : Nat) (trees : List Tree)
    (h : ∀ s ∈ trees, demand.Deep depth s) : Supplied (readBody depth trees) := by
  induction depth generalizing trees with
  | zero => exact supplied_ok []
  | succ depth ih => exact supplied_readAll fun s hs => supplied_statement ih (h s hs)

theorem supplied_document (met : ∀ s ∈ t.list "statements", demand.Deep t.height s) :
    Supplied (read t) := by
  have direction (h : (t.filled? "direction").isSome = true) : Supplied (directionOf t) :=
    supplied_direction (has_of_filled t _ (Option.eq_some_of_isSome h))
  have body := supplied_readBody t.height _ met
  simp [read]
  and_intros <;> grind

end Flowchart

/-! ## Sequence diagrams -/

namespace Sequence

/-- What the statements of sequence diagrams are read for. -/
def demand : Demand := .all
  [.fits [["participant"], ["message"], ["activate"], ["deactivate"], ["note"], ["block"],
      ["autonumber"], ["title"], ["acc_title"], ["acc_descr"]],
    .group "participant" (.needs ["participant_kind", "id"]),
    .group "message" (.needs ["arrow", "from", "to"]),
    .group "activate" (.needs ["id"]),
    .group "deactivate" (.needs ["id"]),
    .group "note" (.needs ["placement"]),
    .group "block" (.all
      [.needs ["block_kind"], .body "body",
        .list "branches" (.all [.needs ["branch_kind"], .body "body"])])]

theorem supplied_blockKind (field : String) :
    Supplied (blockKind t field) ↔ t.has field = true := by
  simp [blockKind]

theorem supplied_numbering : Supplied (numbering t) := by
  unfold numbering
  split <;> simp

theorem supplied_statement {body : List Tree → Reading Fallacy (List Statement)}
    (hbody : ∀ trees, (∀ s ∈ trees, inner s) → Supplied (body trees)) (h : demand.Met inner t) :
    Supplied ((statements body).read t) := by
  obtain ⟨hfits, h⟩ := h
  refine supplied_read hfits ?_
  have branches (block : Tree) (h : ∀ branch ∈ block.list "branches",
      branch.has "branch_kind" = true ∧ ∀ s ∈ branch.list "body", inner s) :
      Supplied ((block.list "branches").mapM fun branch => do
        let kind ← blockKind branch "branch_kind"
        Branch.mk kind ((branch.filled? "label").getD "") <$> body (branch.list "body")) :=
    supplied_mapM fun branch hbranch => by
      simp [supplied_blockKind, (h branch hbranch).1, hbody _ (h branch hbranch).2]
  simp [Met, Captions.shapes, Captions.shapes.accessibleShapes, supplied_blockKind,
    supplied_numbering] at h ⊢
  and_intros <;> grind

theorem supplied_readBody (depth : Nat) (trees : List Tree)
    (h : ∀ s ∈ trees, demand.Deep depth s) : Supplied (readBody depth trees) := by
  induction depth generalizing trees with
  | zero => exact supplied_ok []
  | succ depth ih => exact supplied_readAll fun s hs => supplied_statement ih (h s hs)

theorem supplied_document (met : ∀ s ∈ t.list "statements", demand.Deep t.height s) :
    Supplied (read t) := by
  simpa [read] using supplied_readBody t.height _ met

end Sequence

/-! ## State diagrams -/

namespace StateDiagram

/-- What the statements of state diagrams are read for. -/
def demand : Demand := .all
  [.fits [["composite"], ["region_break"], ["stereotyped"], ["declaration"], ["note"],
      ["direction"], ["class_def"], ["class_statement"], ["transition"], ["description"],
      ["reference"], ["acc_title"], ["acc_descr"]],
    .group "composite" (.all [.needs ["id"], .body "body"]),
    .group "stereotyped" (.needs ["stereotype", "id"]),
    .group "declaration" (.needs ["id"]),
    .group "note" (.needs ["position", "id"]),
    .group "class_def" (.needs ["style", "name"]),
    .group "class_statement" (.needs ["name"]),
    .group "transition" (.all
      [.needs ["from", "to"], .group "from" (.fits [["terminal"], ["id"]]),
        .group "to" (.fits [["terminal"], ["id"]])]),
    .group "description" (.needs ["id", "text"]),
    .group "reference" (.fits [["terminal"], ["id"]])]

theorem supplied_statement {body : List Tree → Reading Fallacy (List Statement)}
    (hbody : ∀ trees, (∀ s ∈ trees, inner s) → Supplied (body trees)) (h : demand.Met inner t) :
    Supplied ((statements body).read t) := by
  obtain ⟨hfits, h⟩ := h
  refine supplied_read hfits ?_
  simp [Met, Captions.shapes.accessibleShapes, mentionOf] at h ⊢
  and_intros <;> grind [supplied_pure, supplied_complain]

theorem supplied_readBody (depth : Nat) (trees : List Tree)
    (h : ∀ s ∈ trees, demand.Deep depth s) : Supplied (readBody depth trees) := by
  induction depth generalizing trees with
  | zero => exact supplied_ok []
  | succ depth ih => exact supplied_readAll fun s hs => supplied_statement ih (h s hs)

theorem supplied_document (met : ∀ s ∈ t.list "statements", demand.Deep t.height s) :
    Supplied (read t) := by
  simpa [read] using supplied_readBody t.height _ met

end StateDiagram

/-! ## Class diagrams -/

namespace ClassDiagram

/-- What the lines of a class are read for, but for the text of annotations. -/
def lineDemand : Demand := .all [.fits [["annotation"], ["member"]], .among "annotation" []]

/-- What the statements of class diagrams are read for, but for the text of annotations. -/
def demand : Demand := .all
  [.fits [["namespace"], ["class"], ["annotate"], ["note"], ["click"], ["direction"],
      ["css_class_statement"], ["style_statement"], ["relation"], ["member_line"], ["reference"],
      ["title"], ["acc_title"], ["acc_descr"]],
    .among "namespace" [], .among "class" [],
    .group "namespace" (.all [.needs ["name"], .body "body"]),
    .group "class" (.all [.needs ["class_id"], .list "members" lineDemand]),
    .group "annotate" (.needs ["class_id", "annotation"]),
    .group "note" (.needs ["text"]),
    .group "click" (.all [.needs ["class_id"], .fits [["url"], ["callback"]], .inked "url"]),
    .group "css_class_statement" (.needs ["targets", "css_class"]),
    .group "style_statement" (.needs ["style", "class_id"]),
    .group "relation" (.all
      [.needs ["operator", "from", "to"], .group "operator" (.needs ["line"])]),
    .group "member_line" (.needs ["class_id", "member"]),
    .group "reference" (.needs ["class_id"])]

/-- A line of a class is an annotation without a text. -/
def Unmarked (line : Tree) : Prop := line.has "annotation" = true ∧ line.filled? "annotation" = none

/-- Some class among the statements, or inside a namespace among them, has an annotation without a
text. -/
inductive BlankAnnotation : List Tree → Prop
  | here {trees : List Tree} {s c line : Tree} (mem : s ∈ trees) (declares : s.tree? "class" = some c)
    (within : line ∈ c.list "members") (unmarked : Unmarked line) : BlankAnnotation trees
  | inside {trees : List Tree} {s ns : Tree} (mem : s ∈ trees)
    (declares : s.tree? "namespace" = some ns) (within : BlankAnnotation (ns.list "body")) :
    BlankAnnotation trees

theorem supplied_member (h : t.has "member" = true) : Supplied (memberOf t) := by
  simp [memberOf, h]

theorem supplied_line (h : lineDemand.Met inner t) (hmarked : ¬ Unmarked t) (c : Class) :
    Supplied (withLine c t) := by
  unfold withLine
  split
  · simp
  · rename_i hblank
    have hmember : t.has "member" = true := by
      have hone : t.has "annotation" = true ∨ t.has "member" = true := by simpa [Met] using h.1
      exact hone.resolve_left fun hmark => hmarked ⟨hmark, hblank⟩
    simpa using supplied_member hmember

theorem supplied_click (h : t.has "class_id" = true)
    (hfits : t.has "url" = true ∨ t.has "callback" = true)
    (hurl : t.has "url" = true → ∃ text, t.filled? "url" = some text) : Supplied (clickOf t) := by
  unfold clickOf
  split
  · simp [h]
  · rename_i hnone
    simp [h, has_of_string?_none t "url" hfits hurl hnone]

theorem supplied_relationship
    (h : t.has "operator" = true ∧ t.has "from" = true ∧ t.has "to" = true)
    (operator : ∃ operator, t.tree? "operator" = some operator ∧ operator.has "line" = true) :
    Supplied (relationshipOf t) := by
  obtain ⟨operator, hoperator, hline⟩ := operator
  simp [relationshipOf, hoperator, hline, h]

theorem supplied_class (h : t.has "class_id" = true) : Supplied (classNamed t) := by
  simp [classNamed, h]

theorem supplied_statement {body : List Tree → Reading Fallacy (List Statement)}
    (hbody : ∀ ns, t.tree? "namespace" = some ns → (∀ s ∈ ns.list "body", inner s) →
      Supplied (body (ns.list "body")))
    (hlines : ∀ c, t.tree? "class" = some c → ∀ line ∈ c.list "members", ¬ Unmarked line)
    (h : demand.Met inner t) : Supplied ((statements body).read t) := by
  obtain ⟨hfits, -, -, h⟩ := h
  refine supplied_read hfits ?_
  have lines (c : Tree) (hc : t.tree? "class" = some c)
      (h : ∀ line ∈ c.list "members", lineDemand.Met inner line) (start : Class) :
      Supplied ((c.list "members").foldlM withLine start) :=
    supplied_foldlM (fun line hline c => supplied_line (h line hline) (hlines _ hc line hline) c) start
  simp [Met, Captions.shapes, Captions.shapes.accessibleShapes] at h ⊢
  and_intros <;>
    grind [supplied_class, supplied_member, supplied_click, supplied_relationship, supplied_pure,
      supplied_complain]

theorem supplied_readBody (depth : Nat) (trees : List Tree)
    (h : ∀ s ∈ trees, demand.Deep depth s) (hmarked : ¬ BlankAnnotation trees) :
    Supplied (readBody depth trees) := by
  induction depth generalizing trees with
  | zero => exact supplied_ok []
  | succ depth ih =>
    refine supplied_readAll fun s hs => supplied_statement (fun ns hns hbody => ?_)
      (fun c hc line hline hunmarked => ?_) (h s hs)
    · exact ih _ hbody fun within => hmarked (.inside hs hns within)
    · exact hmarked (.here hs hc hline hunmarked)

theorem supplied_document (met : ∀ s ∈ t.list "statements", demand.Deep t.height s)
    (hmarked : ¬ BlankAnnotation (t.list "statements")) : Supplied (read t) := by
  simpa [read] using supplied_readBody t.height _ met hmarked

theorem marked_of_withLine (h : lineDemand.Met inner t) {c c' : Class}
    (hread : withLine c t = .ok c') : ¬ Unmarked t := by
  rintro ⟨hmark, hblank⟩
  have hmember : t.has "member" = false := h.2.1.absent hmark (by decide)
  simp [withLine, hblank, memberOf, Tree.needText, need_of_not_has t "member" hmember] at hread
  cases hread

theorem body_of_read {body : List Tree → Reading Fallacy (List Statement)} {s : Statement}
    (hread : (statements body).read t = .ok s) (h : demand.Met inner t) {ns : Tree}
    (hns : t.tree? "namespace" = some ns) : ∃ inside, body (ns.list "body") = .ok inside := by
  have absent (field : String) (hne : field ∉ ["namespace"]) : t.has field = false :=
    h.2.1.absent (Tree.has_of_tree? hns) hne
  have shape := exists_shape hread
  simp [absent, Captions.shapes, Captions.shapes.accessibleShapes, hns, bind_eq_ok] at shape
  obtain ⟨-, name, -, hbody⟩ := shape
  exact (map_eq_ok.1 hbody).imp fun _ => And.left

theorem marked_of_read {body : List Tree → Reading Fallacy (List Statement)} {s : Statement}
    (hread : (statements body).read t = .ok s) (h : demand.Met inner t) {c line : Tree}
    (hc : t.tree? "class" = some c) (hline : line ∈ c.list "members") : ¬ Unmarked line := by
  have absent (field : String) (hne : field ∉ ["class"]) : t.has field = false :=
    h.2.2.1.absent (Tree.has_of_tree? hc) hne
  have shape := exists_shape hread
  simp [absent, Captions.shapes, Captions.shapes.accessibleShapes, hc, bind_eq_ok] at shape
  obtain ⟨-, start, -, hlines⟩ := shape
  obtain ⟨last, hlines, -⟩ := map_eq_ok.1 hlines
  obtain ⟨_, _, hwith⟩ := exists_of_foldlM hlines line hline
  exact marked_of_withLine ((h.2.2.2.2.1.of_group hc).2.1 line hline) hwith

theorem marked_of_readBody (depth : Nat) (trees : List Tree) (h : ∀ s ∈ trees, demand.Deep depth s)
    (hdepth : ∀ s ∈ trees, s.height ≤ depth) {body : List Statement}
    (hread : readBody depth trees = .ok body) : ¬ BlankAnnotation trees := by
  induction depth generalizing trees body with
  | zero =>
    intro blank
    cases blank with
    | here mem | inside mem => exact absurd (Tree.height_pos _) (Nat.not_lt.2 (hdepth _ mem))
  | succ depth ih =>
    intro blank
    cases blank with
    | here mem declares within unmarked =>
      obtain ⟨statement, hstatement⟩ := exists_of_readAll hread _ mem
      exact marked_of_read hstatement (h _ mem) declares within unmarked
    | inside mem declares within =>
      obtain ⟨statement, hstatement⟩ := exists_of_readAll hread _ mem
      obtain ⟨inside, hinside⟩ := body_of_read hstatement (h _ mem) declares
      have deeper := ((h _ mem).2.2.2.1.of_group declares).2.1
      refine ih _ deeper (fun s hs => ?_) hinside within
      have := hdepth _ mem
      have := Tree.height_lt_of_tree? declares
      have := Tree.height_lt_of_mem_list hs
      omega

/-- A document with an annotation without a text in a class is not read. -/
theorem marked_of_document (met : ∀ s ∈ t.list "statements", demand.Deep t.height s)
    {diagram : Diagram} (hread : read t = .ok diagram) : ¬ BlankAnnotation (t.list "statements") := by
  obtain ⟨body, hbody, -⟩ := bind_eq_ok.1 hread
  refine marked_of_readBody t.height _ met (fun s hs => ?_) hbody
  exact Nat.le_of_lt (Tree.height_lt_of_mem_list hs)

end ClassDiagram

end DiagramText
