import DiagramText.Proofs.UniqueIds

/-!
# Graphs for layout

Models of five kinds are graphs, which are handed to a layout algorithm as nodes and edges between ids of
nodes (`Kind.graph?`). A model without issues has an entity at each end of a link, and each entity of such
a model is a node of its graph, so its edges run between nodes (`Graph.Closed`).

The entities of a flowchart are an exception: its edges may end at subgraphs, for which its graph has no
nodes (`Kind.unplaced`). So the graph of a model without issues is closed exactly when no edge ends at one
of these (`graph_closed_iff`), and it need not be (`exists_open_graph`).
-/

namespace DiagramText

namespace Graph

/-- The ids of the nodes. -/
def nodeIds (g : Graph) : List String := g.nodes.map Node.id

/-- The ids at which edges end. -/
def ends (g : Graph) : List String := g.edges.flatMap fun e => [e.source, e.target]

/-- Whether edges run between nodes of the graph. -/
def Closed (g : Graph) : Prop := ∀ id ∈ g.ends, id ∈ g.nodeIds

instance (g : Graph) : Decidable g.Closed := inferInstanceAs (Decidable (∀ id ∈ g.ends, id ∈ g.nodeIds))

end Graph

/-! ## Kinds -/

/-- An end of a link that is reported when it is unknown is known where nothing is reported. -/
theorem known_of_valid {issues : List Issue} (valid : issues = []) {context id : String} {known : Bool}
    (reported : known = false → .danglingReference context id ∈ issues) : known = true := by
  by_contra unknown
  have := reported (by simpa using unknown)
  rw [valid] at this
  cases this

namespace Flowchart

theorem Chart.nodeIds_toGraph (c : Chart) : c.toGraph.nodeIds = c.nodes.map Node.id := by
  simp [toGraph, Graph.nodeIds]

theorem nodup_nodeIds_of_read {t : Tree} {c : Chart} (e : read t = .ok c) : c.toGraph.nodeIds.Nodup :=
  c.nodeIds_toGraph ▸ nodup_nodes_of_read e

theorem Chart.ends_toGraph (c : Chart) : c.toGraph.ends = c.ends := by
  simp [toGraph, Graph.ends, ends, List.flatMap_map]

/-- Without issues, an edge that ends at no node ends at a subgraph. -/
theorem mem_nodeIds_iff {c : Chart} (valid : c.issues = []) {id : String} (hid : id ∈ c.toGraph.ends) :
    id ∈ c.toGraph.nodeIds ↔ id ∉ c.subgraphs.map (·.id) := by
  rw [c.ends_toGraph] at hid
  have target : c.hasNode id = true ∨ id ∈ c.subgraphs.map (·.id) := by
    have := known_of_valid valid fun unknown => edge_mem_issues.2 ⟨hid, unknown⟩
    simpa [Chart.isTarget, Chart.subgraph?] using this
  have apart : id ∈ c.subgraphs.map (·.id) → ¬ c.hasNode id = true := by
    intro subgraph node
    have : .duplicateId id ∈ c.issues := duplicate_mem_issues.2 ⟨by simpa using subgraph, node⟩
    rw [valid] at this
    cases this
  have node : c.hasNode id = true ↔ id ∈ c.toGraph.nodeIds := by
    rw [c.nodeIds_toGraph, c.hasNode_eq]
    exact Keyed.has_iff
  rw [← node]
  exact ⟨fun known subgraph => apart subgraph known, target.resolve_right⟩

end Flowchart

namespace ClassDiagram.Diagram

theorem nodeIds_toGraph (d : Diagram) : d.toGraph.nodeIds = d.classes.map Class.id := by
  simp [toGraph, Graph.nodeIds]

theorem nodup_nodeIds_of_read {t : Tree} {d : Diagram} (e : read t = .ok d) : d.toGraph.nodeIds.Nodup :=
  d.nodeIds_toGraph ▸ nodup_of_read e

theorem closed_toGraph {d : Diagram} (valid : d.issues = []) : d.toGraph.Closed := by
  intro id hid
  have hid : id ∈ d.ends := by simpa [toGraph, Graph.ends, ends, List.flatMap_map] using hid
  have known := known_of_valid valid fun unknown => relationship_mem_issues.2 ⟨hid, unknown⟩
  rw [hasClass_eq] at known
  rw [nodeIds_toGraph]
  exact Keyed.has_iff.1 known

end ClassDiagram.Diagram

namespace StateDiagram

theorem Diagram.nodeIds_toGraph (d : Diagram) : d.toGraph.nodeIds = d.states.map State.id := by
  simp [toGraph, Graph.nodeIds]

theorem nodup_nodeIds_of_read {t : Tree} {d : Diagram} (e : read t = .ok d) : d.toGraph.nodeIds.Nodup :=
  d.nodeIds_toGraph ▸ nodup_of_read e

theorem closed_toGraph {d : Diagram} (valid : d.issues = []) : d.toGraph.Closed := by
  intro id hid
  have hid : id ∈ d.ends := by
    simpa [Diagram.toGraph, Graph.ends, Diagram.ends, List.flatMap_map] using hid
  have known := known_of_valid valid fun unknown => transition_mem_issues.2 ⟨hid, unknown⟩
  rw [d.hasState_eq] at known
  rw [d.nodeIds_toGraph]
  exact Keyed.has_iff.1 known

end StateDiagram

namespace Er

theorem Schema.nodeIds_toGraph (s : Schema) : s.toGraph.nodeIds = s.entities.map Entity.id := by
  simp [toGraph, Graph.nodeIds]

theorem nodup_nodeIds_of_read {t : Tree} {s : Schema} (e : read t = .ok s) : s.toGraph.nodeIds.Nodup :=
  s.nodeIds_toGraph ▸ nodup_of_read e

theorem closed_toGraph {s : Schema} (valid : s.issues = []) : s.toGraph.Closed := by
  intro id hid
  have hid : id ∈ s.ends := by
    simpa [Schema.toGraph, Graph.ends, Schema.ends, List.flatMap_map] using hid
  have known := known_of_valid valid fun unknown => relationship_mem_issues.2 ⟨hid, unknown⟩
  rw [s.hasEntity_eq] at known
  rw [s.nodeIds_toGraph]
  exact Keyed.has_iff.1 known

end Er

namespace Architecture.Diagram

/-- The ids at which edges end. -/
def ends (d : Diagram) : List String := d.edges.flatMap fun e => [e.source.id, e.target.id]

theorem nodeIds_toGraph (d : Diagram) : d.toGraph.nodeIds = d.nodes.map Item.id := by
  simp [toGraph, Graph.nodeIds]

theorem nodup_nodeIds_of_read {t : Tree} {d : Diagram} (e : read t = .ok d) : d.toGraph.nodeIds.Nodup :=
  d.nodeIds_toGraph ▸ nodup_of_read e

theorem edge_mem_issues {d : Diagram} {id : String} (hid : id ∈ d.ends) (unknown : (d.node? id).isSome = false) :
    .danglingReference "edge" id ∈ d.issues := by
  obtain ⟨e, he, hid⟩ := List.mem_flatMap.1 hid
  have own : .danglingReference "edge" id ∈
      ([e.source.id, e.target.id].filter fun id => (d.node? id).isNone).map (Issue.danglingReference "edge") :=
    List.mem_map.2 ⟨id, List.mem_filter.2 ⟨hid, by simpa using unknown⟩, rfl⟩
  exact List.mem_append_right _ (List.mem_flatMap.2 ⟨e, he, own⟩)

theorem closed_toGraph {d : Diagram} (valid : d.issues = []) : d.toGraph.Closed := by
  intro id hid
  have hid : id ∈ d.ends := by simpa [toGraph, Graph.ends, ends, List.flatMap_map] using hid
  have known := known_of_valid valid (edge_mem_issues hid)
  rw [nodeIds_toGraph]
  simpa [node?] using known

end Architecture.Diagram

/-! ## Models -/

namespace Kind

/-- The graph of a model, for the kinds whose models are graphs. -/
def graph? : (kind : Kind) → kind.dialect.Content → Option Graph
  | flowchart, (c : Flowchart.Chart) => some c.toGraph
  | classDiagram, (d : ClassDiagram.Diagram) => some d.toGraph
  | state, (d : StateDiagram.Diagram) => some d.toGraph
  | er, (s : Er.Schema) => some s.toGraph
  | architecture, (d : Architecture.Diagram) => some d.toGraph
  | _, _ => none

/-- The ids of what edges may end at and the graph has no nodes for. -/
def unplaced : (kind : Kind) → kind.dialect.Content → List String
  | flowchart, (c : Flowchart.Chart) => c.subgraphs.map (·.id)
  | _, _ => []

end Kind

/-- The graph of a model of a document that has no issues has nodes with ids of their own. Its edges run
between them if none ends at something that the graph leaves out, and only then. -/
theorem graph_closed_iff {options : ParseOptions} {kind : Kind} {input : String} {m : Model} {g : Graph}
    (h : parseAs .all options kind input = .ok m) (valid : m.issues = [])
    (hg : m.kind.graph? m.content = some g) :
    g.nodeIds.Nodup ∧ (g.Closed ↔ ∀ id ∈ g.ends, id ∉ m.kind.unplaced m.content) := by
  obtain ⟨tree, content, -, hread, hchecked⟩ := parseAs_eq_ok.1 h
  obtain rfl := eq_of_checkedModel hchecked
  cases kind with
  | flowchart =>
    cases hg
    exact ⟨Flowchart.nodup_nodeIds_of_read hread, forall₂_congr fun id => Flowchart.mem_nodeIds_iff valid⟩
  | classDiagram =>
    cases hg
    exact ⟨ClassDiagram.Diagram.nodup_nodeIds_of_read hread,
      iff_of_true (ClassDiagram.Diagram.closed_toGraph valid) (by simp [Kind.unplaced])⟩
  | state =>
    cases hg
    exact ⟨StateDiagram.nodup_nodeIds_of_read hread,
      iff_of_true (StateDiagram.closed_toGraph valid) (by simp [Kind.unplaced])⟩
  | er =>
    cases hg
    exact ⟨Er.nodup_nodeIds_of_read hread, iff_of_true (Er.closed_toGraph valid) (by simp [Kind.unplaced])⟩
  | architecture =>
    cases hg
    exact ⟨Architecture.Diagram.nodup_nodeIds_of_read hread,
      iff_of_true (Architecture.Diagram.closed_toGraph valid) (by simp [Kind.unplaced])⟩
  | _ => cases hg

/-- States inside a composite state, which is an end of a transition itself. -/
theorem graph_closed_state :
    ∃ m g,
      parseAs .all { nesting := 20 } .state "stateDiagram-v2\nstate A \x7b\n[*] --> B\n\x7d\nA --> C\n" = .ok m ∧
      m.issues = [] ∧ m.kind.graph? m.content = some g ∧ g.nodeIds.Nodup ∧ g.Closed := by
  obtain ⟨m, hm, htest⟩ := @exists_parseAs .all { nesting := 20 } .state
    "stateDiagram-v2\nstate A \x7b\n[*] --> B\n\x7d\nA --> C\n"
    (fun m => decide (m.issues = [] ∧ m.kind.unplaced m.content = [] ∧
      (m.kind.graph? m.content).isSome = true)) (by decide +kernel)
  obtain ⟨valid, placed, hsome⟩ := of_decide_eq_true htest
  obtain ⟨g, hg⟩ := Option.isSome_iff_exists.1 hsome
  obtain ⟨distinct, closed⟩ := graph_closed_iff hm valid hg
  exact ⟨m, g, hm, valid, hg, distinct, closed.2 (by simp [placed])⟩

/-- An edge of a flowchart may end at a subgraph, which its graph leaves out. -/
theorem exists_open_graph :
    ∃ m g, parseAs .all { nesting := 20 } .flowchart "graph TD\nsubgraph one\na\nend\none --> b\n" = .ok m ∧
      m.issues = [] ∧ m.kind.graph? m.content = some g ∧ ¬ g.Closed := by
  obtain ⟨m, hm, htest⟩ := @exists_parseAs .all { nesting := 20 } .flowchart
    "graph TD\nsubgraph one\na\nend\none --> b\n"
    (fun m => decide (m.issues = [] ∧ ∃ g ∈ m.kind.graph? m.content, ¬ g.Closed)) (by decide +kernel)
  obtain ⟨valid, g, hg, openEdge⟩ := of_decide_eq_true htest
  exact ⟨m, g, hm, valid, hg, openEdge⟩

end DiagramText
