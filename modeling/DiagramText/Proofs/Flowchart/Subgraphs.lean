import DiagramText.Flowchart.Document
import DiagramText.Proofs.Linked

/-!
# Nodes and subgraphs

The statements of a flowchart are gone through twice: once for the ids of the subgraphs, and once to
put nodes, edges and subgraphs into the chart. Both passes generate ids for subgraphs as they go, so it
matters that they generate the same ones (`applyAll_extends`): an id that the first pass finds makes no
node, and an edge that ends there leads to a subgraph only if the second pass makes it.

`Extends` says what one statement does to a chart, where the first pass found the ids `reserved`. By
induction on statements it holds of whole documents, whose edges therefore all lead somewhere
(`ends_known`) and whose subgraphs have ids that no node has (`subgraphs_apart`).
-/

namespace DiagramText.Flowchart

namespace Chart

/-- The ids at which edges end. -/
def ends (c : Chart) : List String := c.edges.flatMap fun e => [e.source, e.target]

/-- Whether an edge may end at an id, where `reserved` holds those of subgraphs. -/
def knows (reserved : List String) (c : Chart) (id : String) : Bool :=
  reserved.contains id || c.hasNode id

theorem hasNode_addNode (c : Chart) (node : Node) (id : String) :
    (c.addNode node).hasNode id = (c.hasNode id || node.id == id) :=
  c.roster.has_add id (by exact ⟨fun _ => rfl⟩)

theorem hasNode_ensureNode (c : Chart) (new id : String) :
    (c.ensureNode new).hasNode id = (c.hasNode id || new == id) :=
  c.roster.has_ensure id _

@[simp] theorem hasNode_addNodeClass (c : Chart) (target name id : String) :
    (c.addNodeClass target name).hasNode id = c.hasNode id :=
  c.roster.has_change id (by exact ⟨fun _ => rfl⟩)

/-- What a part of a document does to a chart: its edges end at nodes and at ids that are `reserved`
for subgraphs, its nodes have none of these ids, and its subgraphs have the ids `added`. -/
structure Extends (reserved added : List String) (c c' : Chart) : Prop where
  grows : Grows (knows reserved) ends c c'
  nodes_apart : ∀ id ∈ reserved, c'.hasNode id = true → c.hasNode id = true
  subgraphs : (c'.subgraphs.map Subgraph.id).Perm (c.subgraphs.map Subgraph.id ++ added)

namespace Extends

variable {reserved added more : List String} {c c' c'' : Chart}

/-- A step that leaves nodes, edges and subgraphs as they are. -/
theorem of_same (nodes : ∀ id, c'.hasNode id = c.hasNode id) (edges : c'.edges = c.edges)
    (subgraphs : c'.subgraphs = c.subgraphs) : Extends reserved [] c c' where
  grows := .of_ends_eq (by simp [knows, nodes]) (by simp [ends, edges])
  nodes_apart id _ known := nodes id ▸ known
  subgraphs := by simp [subgraphs]

theorem refl (c : Chart) : Extends reserved [] c c := of_same (fun _ => rfl) rfl rfl

theorem trans (first : Extends reserved added c c') (second : Extends reserved more c' c'') :
    Extends reserved (added ++ more) c c'' where
  grows := first.grows.trans second.grows
  nodes_apart id hid known := first.nodes_apart id hid (second.nodes_apart id hid known)
  subgraphs := by
    rw [← List.append_assoc]
    exact second.subgraphs.trans (first.subgraphs.append_right more)

/-- The loop over what adds no subgraph adds none. -/
theorem foldl {α : Type} {step : Chart → α → Chart} (h : ∀ c a, Extends reserved [] c (step c a))
    (items : List α) (c : Chart) : Extends reserved [] c (items.foldl step c) := by
  induction items generalizing c with
  | nil => exact refl c
  | cons a items ih => exact (h c a).trans (ih (step c a))

/-- A node may be added under an id that is not reserved. -/
theorem of_node {id : String} (free : id ∉ reserved)
    (nodes : ∀ other, c'.hasNode other = (c.hasNode other || id == other))
    (edges : c'.edges = c.edges) (subgraphs : c'.subgraphs = c.subgraphs) :
    Extends reserved [] c c' where
  grows := by
    refine .of_ends_eq (fun other => ?_) (by simp [ends, edges])
    simp only [knows, nodes, Bool.or_eq_true]
    exact Or.imp_right .inl
  nodes_apart other hother known := by
    rw [nodes, Bool.or_eq_true, beq_iff_eq] at known
    obtain old | rfl := known
    · exact old
    · exact absurd hother free
  subgraphs := by simp [subgraphs]

/-- An edge may be added between ids that are known. -/
theorem addEdge {e : Edge} (source : c.knows reserved e.source = true)
    (target : c.knows reserved e.target = true) : Extends reserved [] c (c.addEdge e) where
  grows := .of_link (fun _ known => known) (by simp [ends, Chart.addEdge]) source target
  nodes_apart _ _ known := known
  subgraphs := by simp [Chart.addEdge]

end Extends

end Chart

open Chart

namespace Scope

variable {reserved : List String}

/-! ## Mentions -/

@[simp] theorem generated_mention (s : Scope) (m : Mention) :
    (s.mention reserved m).generated = s.generated := rfl

@[simp] theorem generated_mentionAll (s : Scope) (group : List Mention) :
    (s.mentionAll reserved group).generated = s.generated := by
  induction group generalizing s with
  | nil => rfl
  | cons m group ih => exact ih (s.mention reserved m)

@[simp] theorem generated_follow (s : Scope) (sources : List Mention) (links : List Link) :
    (s.follow reserved sources links).generated = s.generated := by
  induction links generalizing s sources with
  | nil => rfl
  | cons link links ih => simp [follow, ih, onChart]

theorem mention_reserved (s : Scope) {m : Mention} (taken : m.id ∈ reserved) :
    (s.mention reserved m).chart = s.chart := by
  simp [mention, taken]

/-- A mention of an id that is not reserved makes a node or changes the one that is there, and then perhaps
gives it a style class. -/
theorem mention_free (s : Scope) {m : Mention} (free : m.id ∉ reserved) :
    ∃ c, (c = s.chart.ensureNode m.id ∨ ∃ label shape, c = s.chart.addNode { id := m.id, label, shape }) ∧
      (s.mention reserved m).chart = m.class?.elim c (c.addNodeClass m.id) := by
  simp only [mention, List.contains_eq_mem, free, decide_false, Bool.false_eq_true, if_false]
  cases m.shape with
  | none => exact ⟨_, .inl rfl, by cases m.class? <;> rfl⟩
  | some given => exact ⟨_, .inr ⟨given.2, given.1, rfl⟩, by cases m.class? <;> rfl⟩

/-- A mention makes a node, unless the id is reserved. -/
theorem mention_extends (reserved : List String) (s : Scope) (m : Mention) :
    Extends reserved [] s.chart (s.mention reserved m).chart ∧
      (s.mention reserved m).chart.knows reserved m.id = true := by
  by_cases taken : m.id ∈ reserved
  · rw [mention_reserved s taken]
    exact ⟨.refl _, by simp [knows, taken]⟩
  · obtain ⟨c, made, e⟩ := mention_free s taken
    have nodes : ∀ id, c.hasNode id = (s.chart.hasNode id || m.id == id) := by
      obtain rfl | ⟨label, shape, rfl⟩ := made
      · exact hasNode_ensureNode s.chart m.id
      · exact hasNode_addNode s.chart _
    have rest : c.edges = s.chart.edges ∧ c.subgraphs = s.chart.subgraphs := by
      obtain rfl | ⟨label, shape, rfl⟩ := made <;> exact ⟨rfl, rfl⟩
    rw [e]
    cases m.class? with
    | none => exact ⟨.of_node taken nodes rest.1 rest.2, by simp [knows, nodes]⟩
    | some name => exact ⟨.of_node taken (by simpa using nodes) rest.1 rest.2, by simp [knows, nodes]⟩

theorem mentionAll_extends (reserved : List String) (s : Scope) (group : List Mention) :
    Extends reserved [] s.chart (s.mentionAll reserved group).chart ∧
      ∀ m ∈ group, (s.mentionAll reserved group).chart.knows reserved m.id = true := by
  induction group generalizing s with
  | nil => exact ⟨.refl _, by simp⟩
  | cons m group ih =>
    obtain ⟨first, known⟩ := mention_extends reserved s m
    obtain ⟨rest, all⟩ := ih (s.mention reserved m)
    refine ⟨first.trans rest, ?_⟩
    rw [List.forall_mem_cons]
    exact ⟨rest.grows.keeps _ known, all⟩

/-! ## Chains -/

/-- The edges of a link may be added once both groups are known. -/
theorem addEdges_extends {c : Chart} {sources : List Mention} {link : Link}
    (hsources : ∀ m ∈ sources, c.knows reserved m.id = true)
    (htargets : ∀ m ∈ link.targets, c.knows reserved m.id = true) :
    Extends reserved [] c ((edgesOf sources link).foldl Chart.addEdge c) := by
  have ends_known : ∀ e ∈ edgesOf sources link,
      c.knows reserved e.source = true ∧ c.knows reserved e.target = true := by
    intro e he
    simp only [edgesOf, List.mem_flatMap, List.mem_map] at he
    obtain ⟨source, hsource, target, htarget, rfl⟩ := he
    exact ⟨hsources source hsource, htargets target htarget⟩
  generalize edgesOf sources link = edges at ends_known
  clear hsources htargets
  induction edges generalizing c with
  | nil => exact .refl c
  | cons e edges ih =>
    rw [List.forall_mem_cons] at ends_known
    exact (Extends.addEdge ends_known.1.1 ends_known.1.2).trans (ih ends_known.2)

theorem follow_extends {s : Scope} {sources : List Mention}
    (known : ∀ m ∈ sources, s.chart.knows reserved m.id = true) (links : List Link) :
    Extends reserved [] s.chart (s.follow reserved sources links).chart := by
  induction links generalizing s sources with
  | nil => exact .refl _
  | cons link links ih =>
    obtain ⟨mentioned, targets⟩ := mentionAll_extends reserved s link.targets
    have joined := addEdges_extends (fun m hm => mentioned.grows.keeps _ (known m hm)) targets
    let next := (s.mentionAll reserved link.targets).onChart
      ((edgesOf sources link).foldl Chart.addEdge)
    have rest : Extends reserved [] next.chart (next.follow reserved link.targets links).chart :=
      ih fun m hm => joined.grows.keeps _ (targets m hm)
    exact (mentioned.trans joined).trans rest

/-! ## Statements -/

theorem assignClass_extends (c : Chart) (target name : String) :
    Extends reserved [] c (c.assignClass target name) :=
  .of_same (hasNode_addNodeClass c target name) rfl rfl

theorem addEdgeStyle_extends (c : Chart) (index : Option Nat) (style : Style) :
    Extends reserved [] c (c.addEdgeStyle index style) :=
  .of_same (fun _ => rfl) rfl rfl

theorem defineClass_extends (c : Chart) (name : String) (style : Style) :
    Extends reserved [] c (c.defineClass name style) :=
  .of_same (fun _ => rfl) rfl rfl

mutual

/-- A statement extends the chart by subgraphs with the ids that the first pass gave it, and leaves the
count of generated ids where the first pass left it. -/
theorem apply_extends (parent : Option String) (s : Scope) : ∀ statement : Statement,
    Extends reserved (subgraphIds s.generated statement).1 s.chart
        (apply reserved parent s statement).chart ∧
      (apply reserved parent s statement).generated = (subgraphIds s.generated statement).2
  | .caption _ => ⟨.of_same (fun _ => rfl) rfl rfl, rfl⟩
  | .direction _ => by
    simp only [apply]
    split
    · exact ⟨.refl _, rfl⟩
    · exact ⟨.of_same (fun _ => rfl) rfl rfl, rfl⟩
  | .nodes group => ⟨(mentionAll_extends reserved s group).1, by simp [apply, subgraphIds]⟩
  | .chain first links => by
    obtain ⟨mentioned, known⟩ := mentionAll_extends reserved s first
    exact ⟨mentioned.trans (follow_extends known links), by simp [apply, subgraphIds]⟩
  | .subgraph id title body => by
    obtain ⟨inner, count⟩ := applyAll_extends (some (subgraphId s.generated id title).1)
      { chart := s.chart, generated := (subgraphId s.generated id title).2 } body
    refine ⟨⟨?_, inner.nodes_apart, ?_⟩, count⟩
    · exact inner.grows.trans (.of_ends_eq (fun _ known => known) rfl)
    · simp only [apply, Chart.addSubgraph, List.map_append, List.map_cons, List.map_nil, subgraphIds]
      refine (inner.subgraphs.append_right _).trans ?_
      rw [List.append_assoc]
      exact (List.perm_append_singleton _ _).append_left _
  | .defineClass names style =>
    ⟨.foldl (fun c name => defineClass_extends c name style) names s.chart, rfl⟩
  | .assignClass targets name =>
    ⟨.foldl (fun c target => assignClass_extends c target name) targets s.chart, rfl⟩
  | .style _ _ => ⟨.of_same (fun _ => rfl) rfl rfl, rfl⟩
  | .edgeStyle none style => ⟨addEdgeStyle_extends s.chart none style, rfl⟩
  | .edgeStyle (some indexes) style =>
    ⟨.foldl (fun c index => addEdgeStyle_extends c (some index) style) indexes s.chart, rfl⟩
  | .click _ => ⟨.of_same (fun _ => rfl) rfl rfl, rfl⟩

theorem applyAll_extends (parent : Option String) (s : Scope) : ∀ body : List Statement,
    Extends reserved (allSubgraphIds s.generated body).1 s.chart
        (applyAll reserved parent s body).chart ∧
      (applyAll reserved parent s body).generated = (allSubgraphIds s.generated body).2
  | [] => ⟨.refl _, rfl⟩
  | statement :: rest => by
    obtain ⟨first, count⟩ := apply_extends parent s statement
    obtain ⟨more, total⟩ := applyAll_extends parent (apply reserved parent s statement) rest
    rw [count] at more total
    exact ⟨first.trans more, total⟩

end

end Scope

/-! ## Documents -/

namespace Chart

variable (direction : Direction) (body : List Statement)

/-- Both passes give subgraphs the same ids. -/
theorem ids_ofStatements :
    ((ofStatements direction body).subgraphs.map Subgraph.id).Perm (allSubgraphIds 0 body).1 :=
  (Scope.applyAll_extends none { chart := { direction := direction } } body).1.subgraphs

theorem ofStatements_extends :
    Extends (allSubgraphIds 0 body).1 (allSubgraphIds 0 body).1 { direction := direction }
      (ofStatements direction body) :=
  (Scope.applyAll_extends none { chart := { direction := direction } } body).1

/-- Every edge ends at nodes and subgraphs of the chart. -/
theorem ends_known {id : String} (h : id ∈ (ofStatements direction body).ends) :
    (ofStatements direction body).isTarget id = true := by
  have known := (ofStatements_extends direction body).grows.closed rfl id h
  simp only [knows, List.contains_eq_mem, Bool.or_eq_true, decide_eq_true_eq] at known
  rw [isTarget, Bool.or_eq_true]
  obtain reserved | node := known
  · obtain ⟨s, hs, rfl⟩ := List.mem_map.1 ((ids_ofStatements direction body).mem_iff.2 reserved)
    exact .inr (by simpa [subgraph?] using ⟨s, hs, rfl⟩)
  · exact .inl node

/-- No node has the id of a subgraph. -/
theorem subgraphs_apart {s : Subgraph} (h : s ∈ (ofStatements direction body).subgraphs) :
    (ofStatements direction body).hasNode s.id = false := by
  have reserved : s.id ∈ (allSubgraphIds 0 body).1 :=
    (ids_ofStatements direction body).mem_iff.1 (List.mem_map.2 ⟨s, h, rfl⟩)
  refine Bool.eq_false_iff.2 fun node => ?_
  cases (ofStatements_extends direction body).nodes_apart s.id reserved node

end Chart

end DiagramText.Flowchart
