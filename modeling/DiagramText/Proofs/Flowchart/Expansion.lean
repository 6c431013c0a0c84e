import DiagramText.Proofs.Flowchart.Subgraphs
import Mathlib.Data.List.Defs

/-!
# What a document expands to

A chain stands for edges between its groups, and a subgraph for its statements, which are carried out in its place.
So a chart has the edges of the chains of its document, link by link in their order (`chainEdges`), and its nodes in
the order in which they are first mentioned. An id that belongs to a subgraph makes no node wherever it is mentioned,
since the first pass has found it by then.

`Expands` says which edges and which ids a part of a document adds. By induction on statements it holds of whole
documents (`Scope.applyAll_expands`).
-/

namespace DiagramText.Flowchart

/-! ## Chains and mentions -/

mutual

/-- The chains of a statement, each with its first group and its links. -/
def chains : Statement → List (List Mention × List Link)
  | .chain first links => [(first, links)]
  | .subgraph _ _ body => allChains body
  | _ => []

/-- The chains of statements. -/
def allChains : List Statement → List (List Mention × List Link)
  | [] => []
  | statement :: rest => chains statement ++ allChains rest

end

mutual

/-- The ids in the groups of nodes of a statement. -/
def mentions : Statement → List String
  | .nodes group => group.map Mention.id
  | .chain first links => first.map Mention.id ++ links.flatMap fun link => link.targets.map Mention.id
  | .subgraph _ _ body => allMentions body
  | _ => []

/-- The ids in the groups of nodes of statements. -/
def allMentions : List Statement → List String
  | [] => []
  | statement :: rest => mentions statement ++ allMentions rest

end

/-- The edges of a chain: for each group and the next one, from every node of the former to every node of the latter
with the arrow and the label in between. -/
def chainEdges : List Mention × List Link → List Edge
  | (first, links) =>
    ((first :: links.map Link.targets).zip links).flatMap fun (sources, link) =>
      (sources ×ˢ link.targets).map fun (source, target) =>
        { source := source.id, target := target.id, arrow := link.arrow, label := link.label }

theorem chainEdges_cons (sources : List Mention) (link : Link) (links : List Link) :
    chainEdges (sources, link :: links) = Scope.edgesOf sources link ++ chainEdges (link.targets, links) := by
  rw [chainEdges, List.map_cons, List.zip_cons_cons, List.flatMap_cons, ← chainEdges, Scope.edgesOf]
  simp only [SProd.sprod, List.product, List.map_flatMap, List.map_map, Function.comp_def]

/-! ## Steps -/

/-- What a part of a document does to the edges and the nodes of a chart: it adds edges at the end, and a node for
each id that it mentions, unless the id is reserved or has a node already. -/
structure Expands (reserved : List String) (edges : List Edge) (mentioned : List String) (c c' : Chart) : Prop where
  edges_eq : c'.edges = c.edges ++ edges
  nodes_eq : Keyed.ids c'.nodes = Distinct.addAll (Keyed.ids c.nodes) (mentioned.filter (· ∉ reserved))

namespace Expands

variable {reserved mentioned more : List String} {edges next : List Edge} {c c' c'' : Chart}

theorem of_same (edges : c'.edges = c.edges) (nodes : Keyed.ids c'.nodes = Keyed.ids c.nodes) :
    Expands reserved [] [] c c' where
  edges_eq := by rw [edges, List.append_nil]
  nodes_eq := nodes

theorem refl (c : Chart) : Expands reserved [] [] c c := of_same rfl rfl

theorem trans (first : Expands reserved edges mentioned c c') (second : Expands reserved next more c' c'') :
    Expands reserved (edges ++ next) (mentioned ++ more) c c'' where
  edges_eq := by rw [second.edges_eq, first.edges_eq, List.append_assoc]
  nodes_eq := by
    rw [second.nodes_eq, first.nodes_eq, List.filter_append, Distinct.addAll, Distinct.addAll, Distinct.addAll,
      List.foldl_append]

/-- The loop over what mentions nothing and adds no edge. -/
theorem foldl {α : Type} {step : Chart → α → Chart} (h : ∀ c a, Expands reserved [] [] c (step c a))
    (items : List α) (c : Chart) : Expands reserved [] [] c (items.foldl step c) := by
  induction items generalizing c with
  | nil => exact refl c
  | cons a items ih => exact (h c a).trans (ih (step c a))

end Expands

theorem Chart.ids_addNodeClass (c : Chart) (target name : String) :
    Keyed.ids (c.addNodeClass target name).nodes = Keyed.ids c.nodes := by
  rw [nodes_addNodeClass]
  exact Keyed.ids_update (by exact fun _ => rfl) c.nodes target

namespace Scope

variable (reserved : List String)

theorem mention_expands (s : Scope) (m : Mention) :
    Expands reserved [] [m.id] s.chart (s.mention reserved m).chart := by
  by_cases taken : m.id ∈ reserved
  · have none : [m.id].filter (· ∉ reserved) = [] := by simp [taken]
    rw [mention_reserved s taken]
    exact ⟨(List.append_nil _).symm, by rw [none]; rfl⟩
  · have one : [m.id].filter (· ∉ reserved) = [m.id] := by simp [taken]
    obtain ⟨c, made, e⟩ := mention_free s taken
    have edges : c.edges = s.chart.edges := by obtain rfl | ⟨label, shape, rfl⟩ := made <;> rfl
    have nodes : Keyed.ids c.nodes = Distinct.add (Keyed.ids s.chart.nodes) m.id := by
      obtain rfl | ⟨label, shape, rfl⟩ := made
      · rw [Chart.nodes_ensureNode]
        exact Keyed.ids_ensure s.chart.nodes _
      · rw [Chart.nodes_addNode]
        exact Keyed.ids_add (fun _ same => same) s.chart.nodes
    have declared : Expands reserved [] [m.id] s.chart c :=
      ⟨by rw [edges, List.append_nil], by rw [nodes, one]; rfl⟩
    rw [e]
    cases m.class? with
    | none => exact declared
    | some name => exact declared.trans (.of_same rfl (c.ids_addNodeClass m.id name))

theorem mentionAll_expands (s : Scope) (group : List Mention) :
    Expands reserved [] (group.map Mention.id) s.chart (s.mentionAll reserved group).chart := by
  induction group generalizing s with
  | nil => exact .refl _
  | cons m group ih => exact (mention_expands reserved s m).trans (ih (s.mention reserved m))

theorem nodes_addEdges (c : Chart) (edges : List Edge) :
    (edges.foldl Chart.addEdge c).nodes = c.nodes :=
  foldl_same (fun e _ c => (rfl : (c.addEdge e).nodes = c.nodes)) c

theorem addEdges_expands (c : Chart) (edges : List Edge) :
    Expands reserved edges [] c (edges.foldl Chart.addEdge c) where
  edges_eq := by
    induction edges generalizing c with
    | nil => exact (List.append_nil _).symm
    | cons e edges ih => rw [List.foldl_cons, ih, Chart.addEdge, List.append_assoc]; rfl
  nodes_eq := by rw [nodes_addEdges]; rfl

theorem follow_expands (sources : List Mention) (s : Scope) (links : List Link) :
    Expands reserved (chainEdges (sources, links)) (links.flatMap fun link => link.targets.map Mention.id) s.chart
      (s.follow reserved sources links).chart := by
  induction links generalizing s sources with
  | nil => exact .refl _
  | cons link links ih =>
    have mentioned := mentionAll_expands reserved s link.targets
    have joined := addEdges_expands reserved (s.mentionAll reserved link.targets).chart (edgesOf sources link)
    have rest := ih link.targets
      ((s.mentionAll reserved link.targets).onChart ((edgesOf sources link).foldl Chart.addEdge))
    rw [chainEdges_cons, List.flatMap_cons]
    exact mentioned.trans (joined.trans rest)

/-! ## Statements -/

mutual

/-- A statement adds the edges of its chains and the nodes that it mentions. -/
theorem apply_expands (parent : Option String) (s : Scope) : ∀ statement : Statement,
    Expands reserved ((chains statement).flatMap chainEdges) (mentions statement) s.chart
      (apply reserved parent s statement).chart
  | .nodes group => mentionAll_expands reserved s group
  | .chain first links => by
    rw [chains, List.flatMap_singleton]
    exact (mentionAll_expands reserved s first).trans (follow_expands reserved first _ links)
  | .subgraph id title body => by
    have inner := applyAll_expands (some (subgraphId s.generated id title).1)
      { chart := s.chart, generated := (subgraphId s.generated id title).2 } body
    exact ⟨inner.edges_eq, inner.nodes_eq⟩
  | .direction d => by
    rw [apply]
    split <;> exact .of_same rfl rfl
  | .defineClass names style => by
    refine Expands.foldl (fun c name => ?_) names s.chart
    exact .of_same rfl rfl
  | .assignClass targets name => by
    refine Expands.foldl (fun c target => ?_) targets s.chart
    exact .of_same rfl (c.ids_addNodeClass target name)
  | .edgeStyle (some indexes) style => by
    refine Expands.foldl (fun c index => ?_) indexes s.chart
    exact .of_same rfl rfl
  | .caption _ | .style _ _ | .edgeStyle none _ | .click _ => .of_same rfl rfl

theorem applyAll_expands (parent : Option String) (s : Scope) : ∀ body : List Statement,
    Expands reserved ((allChains body).flatMap chainEdges) (allMentions body) s.chart
      (applyAll reserved parent s body).chart
  | [] => .refl _
  | statement :: rest => by
    rw [allChains, List.flatMap_append]
    exact (apply_expands parent s statement).trans (applyAll_expands parent _ rest)

end

end Scope

/-! ## Documents -/

namespace Chart

theorem ofStatements_expands (direction : Direction) (body : List Statement) :
    Expands (allSubgraphIds 0 body).1 ((allChains body).flatMap chainEdges) (allMentions body)
      { direction := direction } (ofStatements direction body) :=
  Scope.applyAll_expands _ none { chart := { direction := direction } } body

/-- Nodes stand in the order in which they are first mentioned. -/
theorem ids_nodes_ofStatements (direction : Direction) (body : List Statement) :
    (ofStatements direction body).nodes.map Node.id =
      ((allMentions body).filter (· ∉ (allSubgraphIds 0 body).1)).eraseDups :=
  (ofStatements_expands direction body).nodes_eq.trans (Distinct.addAll_eraseDups [] _)

/-- The edges of a chart are those of the chains of its document, those of a subgraph in its place. Its nodes are
all that is mentioned anywhere but has not the id of a subgraph, in the order of first mentions. And its subgraphs
have the ids that are found for the subgraphs of the document before the first statement is carried out. -/
theorem edges_nodes_ofStatements (direction : Direction) (body : List Statement) :
    let c := ofStatements direction body
    c.edges = (allChains body).flatMap chainEdges ∧
      c.nodes.map Node.id = ((allMentions body).filter (· ∉ c.subgraphs.map Subgraph.id)).eraseDups ∧
      (c.subgraphs.map Subgraph.id).Perm (allSubgraphIds 0 body).1 := by
  intro c
  have same : (c.subgraphs.map Subgraph.id).Perm (allSubgraphIds 0 body).1 := ids_ofStatements direction body
  refine ⟨(ofStatements_expands direction body).edges_eq, ?_, same⟩
  simp only [same.mem_iff]
  exact ids_nodes_ofStatements direction body

end Chart

end DiagramText.Flowchart
