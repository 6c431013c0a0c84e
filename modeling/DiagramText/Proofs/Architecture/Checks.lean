import DiagramText.Proofs.Layout

/-!
# Checks of architecture diagrams

A document is checked while it is read, in three rounds: each id is declared once, then each node is in a
proper group, then each edge joins declared nodes. The checks of a diagram ask for the same, and what a
round has checked the next ones keep: the place of a node depends on the nodes alone
(`parentIssues_congr`), which are those of the document (`nodes_of_foldlM`), and the round of the edges
leaves the nodes as they are. So a diagram that is read has no issues other than being empty
(`issues_of_read`).
-/

namespace DiagramText.Architecture

namespace Diagram

/-! ## Places of nodes -/

section

variable {d d' : Diagram}

theorem returns_congr (h : d'.nodes = d.nodes) (id : String) (fuel : Nat) (seen : List String)
    (current : Option String) : d'.returns id fuel seen current = d.returns id fuel seen current := by
  induction fuel generalizing seen current with
  | zero => cases current <;> rfl
  | succ more ih =>
    cases current with
    | none => rfl
    | some parent => rw [returns, returns, ih, parent?, parent?, node?, node?, h]

/-- What is wrong with the place of a node depends on the nodes alone. -/
theorem parentIssues_congr (h : d'.nodes = d.nodes) (node : Item) :
    d'.parentIssues node = d.parentIssues node := by
  have lookup : d'.node? = d.node? := by
    funext id
    rw [node?, node?, h]
  have cycle : d'.inCycle node.id = d.inCycle node.id := by
    rw [inCycle, inCycle, returns_congr h, h, parent?, parent?, lookup]
  rw [parentIssues, parentIssues, lookup, cycle]

/-- Nothing is wrong with the place of a node that passes the check of the document. -/
theorem parentIssues_of_checkParent {node : Item} {offset : Nat}
    (h : d.checkParent (offset, .node node) = .ok ()) : d.parentIssues node = [] := by
  rw [checkParent] at h
  rw [parentIssues]
  cases hparent : node.parent with
  | none => rfl
  | some parent =>
    simp only [hparent] at h ⊢
    split at h
    · cases h
    · split at h
      · cases h
      · rename_i isGroup
        split at h
        · cases h
        · rename_i acyclic
          rw [if_neg isGroup, if_neg acyclic]

/-- Nothing is wrong with nodes whose ids are distinct and whose places are proper. -/
theorem nodeIssues_eq_nil {seen : List String} {nodes : List Item}
    (distinct : (∀ id ∈ nodes.map Item.id, id ∉ seen) ∧ (nodes.map Item.id).Nodup)
    (placed : ∀ node ∈ nodes, d.parentIssues node = []) : d.nodeIssues seen nodes = [] := by
  induction nodes generalizing seen with
  | nil => rfl
  | cons node nodes ih =>
    rw [List.map_cons, fresh_and_nodup_cons] at distinct
    have fresh : seen.contains node.id = false := by simpa using distinct.1
    rw [nodeIssues, fresh, placed node List.mem_cons_self,
      ih distinct.2 fun other h => placed other (List.mem_cons_of_mem node h)]
    rfl

end

/-! ## Rounds -/

/-- The node that a statement declares. -/
def declared? : Nat × Statement → Option Item
  | (_, .node node) => some node
  | _ => none

theorem declared?_eq_some {placed : Nat × Statement} {node : Item} :
    declared? placed = some node ↔ placed.2 = .node node := by
  obtain ⟨offset, statement⟩ := placed
  cases statement <;> simp [declared?]

theorem nodes_apply {d d' : Diagram} {placed : Nat × Statement} (e : d.apply placed = .ok d') :
    d'.nodes = d.nodes ++ (declared? placed).toList := by
  obtain ⟨offset, statement⟩ := placed
  cases statement with
  | node node =>
    simp only [apply, Reading.orComplain_eq_ok, addNode?, Option.ite_none_left_eq_some, Option.some.injEq] at e
    obtain ⟨-, rfl⟩ := e
    rfl
  | _ =>
    cases e
    exact (List.append_nil _).symm

/-- The nodes of a diagram are those that the statements declare. -/
theorem nodes_of_foldlM {placed : List (Nat × Statement)} {d d' : Diagram}
    (e : placed.foldlM apply d = .ok d') : d'.nodes = d.nodes ++ placed.filterMap declared? := by
  induction placed generalizing d with
  | nil =>
    cases e
    exact (List.append_nil _).symm
  | cons first placed ih =>
    rw [List.foldlM_cons, Reading.bind_eq_ok] at e
    obtain ⟨next, hnext, e⟩ := e
    rw [ih e, nodes_apply hnext, List.append_assoc, List.filterMap_cons]
    cases declared? first <;> rfl

theorem edges_apply {d d' : Diagram} {placed : Nat × Statement} (e : d.apply placed = .ok d') :
    d'.edges = d.edges := by
  obtain ⟨offset, statement⟩ := placed
  cases statement with
  | node node =>
    simp only [apply, Reading.orComplain_eq_ok, addNode?, Option.ite_none_left_eq_some, Option.some.injEq] at e
    obtain ⟨-, rfl⟩ := e
    rfl
  | _ =>
    cases e
    rfl

/-- Whether all edges join nodes of the diagram. -/
def Joined (d : Diagram) : Prop := ∀ id ∈ d.ends, (d.node? id).isSome = true

theorem declared_of_terminalFallacy? {d : Diagram} {t : Terminal} (h : d.terminalFallacy? t = none) :
    (d.node? t.id).isSome = true := by
  rw [terminalFallacy?] at h
  split at h
  · cases h
  · rename_i found
    rw [found]
    rfl

theorem Joined.applyEdge {d d' : Diagram} {placed : Nat × Statement} (h : d.Joined)
    (e : d.applyEdge placed = .ok d') : d'.Joined := by
  obtain ⟨offset, statement⟩ := placed
  cases statement with
  | edge edge =>
    simp only [Diagram.applyEdge] at e
    split at e
    · cases e
    · rename_i fine
      cases e
      simp only [List.findSome?_eq_none_iff, List.forall_mem_cons] at fine
      intro id hid
      have hid : id ∈ d.ends ∨ id = edge.source.id ∨ id = edge.target.id := by
        simpa [ends, addEdge] using hid
      rcases hid with old | rfl | rfl
      · exact h id old
      · exact declared_of_terminalFallacy? fine.1
      · exact declared_of_terminalFallacy? fine.2.1
  | _ =>
    cases e
    exact h

/-- No end of an edge is undeclared where all edges join nodes. -/
theorem Joined.edgeIssues {d : Diagram} (h : d.Joined) :
    (d.edges.flatMap fun edge => ([edge.source.id, edge.target.id].filter fun id => (d.node? id).isNone).map
      (Issue.danglingReference "edge")) = [] := by
  refine List.flatMap_eq_nil_iff.2 fun edge hedge => List.map_eq_nil_iff.2 (List.filter_eq_nil_iff.2 ?_)
  intro id hid
  rw [Option.isNone_iff_eq_none]
  exact Option.isSome_iff_ne_none.1 (h id (List.mem_flatMap.2 ⟨edge, hedge, hid⟩))

end Diagram

/-- Nothing is wrong with a diagram that is read, except that it may be empty. -/
theorem issues_of_read {t : Tree} {d : Diagram} (e : read t = .ok d) :
    d.issues = Issue.ofCount d.entityCount := by
  have distinct := nodup_of_read e
  simp only [read, Reading.bind_eq_ok] at e
  obtain ⟨placed, -, declared, hdeclared, _, hparents, e⟩ := e
  have nodes : d.nodes = declared.nodes :=
    Reading.foldlM_invariant (P := fun d : Diagram => d.nodes = declared.nodes)
      (fun _ _ _ h e => (Diagram.nodes_applyEdge e).trans h) rfl e
  have unjoined : declared.edges = [] :=
    Reading.foldlM_invariant (P := fun d : Diagram => d.edges = [])
      (fun _ _ _ h e => (Diagram.edges_apply e).trans h) rfl hdeclared
  have joined : d.Joined :=
    Reading.foldlM_invariant (fun _ _ _ h e => Diagram.Joined.applyEdge h e)
      (by simp [Diagram.Joined, Diagram.ends, unjoined]) e
  have inPlace : ∀ node ∈ d.nodes, d.parentIssues node = [] := by
    intro node hnode
    rw [nodes, Diagram.nodes_of_foldlM hdeclared, List.nil_append] at hnode
    obtain ⟨⟨offset, statement⟩, hplaced, hstatement⟩ := List.mem_filterMap.1 hnode
    obtain rfl : statement = .node node := Diagram.declared?_eq_some.1 hstatement
    rw [Diagram.parentIssues_congr nodes]
    exact Diagram.parentIssues_of_checkParent (Reading.forM_eq_ok.1 hparents _ hplaced)
  rw [Diagram.issues, Diagram.nodeIssues_eq_nil ⟨fun _ _ => List.not_mem_nil, distinct⟩ inPlace,
    joined.edgeIssues, List.append_nil, List.append_nil, Diagram.entityCount]

end DiagramText.Architecture
