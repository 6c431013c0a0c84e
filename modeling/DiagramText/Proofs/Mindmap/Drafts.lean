import DiagramText.Mindmap
import DiagramText.Proofs.Reading
import Mathlib.Data.List.Basic
import Mathlib.Data.List.Count

/-!
# Drafts of mind maps

What is checked of a mind map is about its parents alone: which places the nodes belong to, one after the
other (`Map.parents`). A line adds a parent at the end or leaves the parents as they are. The open nodes of
a draft are nodes that it has, and only the first node may have no parent (`Draft.Rooted`). So a map that is
read has one root, and all its parents are nodes of it (`issues_of_read`).
-/

namespace DiagramText.Mindmap

namespace Map

/-- The places of the parents of all nodes. -/
def parents (m : Map) : List (Option Nat) := m.nodes.map Item.parent

theorem length_parents (m : Map) : m.parents.length = m.nodes.length := List.length_map ..

section

variable {α : Type} {view : Item → α}

/-- A change shows only where nodes are seen differently. -/
theorem map_modify (m : Map) (i : Nat) {change : Item → Item} (same : ∀ node, view (change node) = view node) :
    (m.modify i change).nodes.map view = m.nodes.map view := by
  refine List.ext_getElem? fun j => ?_
  rw [modify, List.getElem?_map, List.getElem?_map, List.getElem?_modify]
  cases m.nodes[j]? with
  | none => rfl
  | some node => by_cases here : i = j <;> simp [here, same]

/-- A new node stands at the end, and only the children of another one change. -/
theorem map_addNode (m : Map) (parent : Option Nat) (id label : String) (shape : Shape)
    (same : ∀ node children, view { node with children := children } = view node) :
    (m.addNode parent id label shape).nodes.map view = m.nodes.map view ++
      [view { id, label, shape, parent, level := (parent.bind m.node?).elim 0 (·.level + 1) }] := by
  have withChild : (parent.elim m fun p => m.modify p fun node =>
      { node with children := node.children ++ [m.nodes.length] }).nodes.map view = m.nodes.map view := by
    cases parent with
    | none => rfl
    | some p => exact m.map_modify p fun node => same node _
  rw [addNode, List.map_append, withChild]
  rfl

end

theorem parents_modify (m : Map) (i : Nat) {change : Item → Item}
    (same : ∀ node, (change node).parent = node.parent) : (m.modify i change).parents = m.parents :=
  m.map_modify i same

theorem parents_addNode (m : Map) (parent : Option Nat) (id label : String) (shape : Shape) :
    (m.addNode parent id label shape).parents = m.parents ++ [parent] :=
  m.map_addNode parent id label shape fun _ _ => rfl

/-- Nothing is wrong with a map that is empty or has one root, where parents are nodes of the map. -/
theorem issues_eq {m : Map} (root : m.parents ≠ [] → m.parents.count none = 1)
    (known : ∀ p, some p ∈ m.parents → p < m.parents.length) : m.issues = Issue.ofCount m.entityCount := by
  rw [entityCount, Issue.ofCount]
  by_cases empty : m.nodes = []
  · rw [issues, empty]
    rfl
  · have roots : m.nodes.countP (·.parent.isNone) = 1 := by
      rw [← root (by simpa [parents] using empty), parents, List.count, List.countP_map]
      exact List.countP_congr fun node _ => by cases h : node.parent <;> simp [h]
    have noDangling : m.nodes.filterMap (fun node => (node.parent.filter (m.nodes.length ≤ ·)).map fun parent =>
        Issue.danglingReference ("parent of '" ++ node.id ++ "'") (toString parent)) = [] := by
      refine List.filterMap_eq_nil_iff.2 fun node hnode => ?_
      have kept : node.parent.filter (m.nodes.length ≤ ·) = none := by
        refine Option.filter_eq_none_iff.2 fun p hp => ?_
        have := known p (List.mem_map.2 ⟨node, hnode, hp⟩)
        rw [length_parents] at this
        simpa using this
      rw [kept, Option.map_none]
    rw [issues, if_neg (mt List.isEmpty_iff.1 empty), noDangling, List.append_nil, if_pos roots,
      if_neg (mt List.length_eq_zero_iff.1 empty)]

end Map

/-- The open nodes of a draft are nodes that it has, as are the parents of nodes, and all but one of its
nodes have a parent. -/
structure Draft.Rooted (d : Draft) : Prop where
  opened_lt : ∀ entry ∈ d.opened, entry.2 < d.map.parents.length
  parent_lt : ∀ p, some p ∈ d.map.parents → p < d.map.parents.length
  one_root : d.map.parents ≠ [] → d.map.parents.count none = 1

theorem Draft.Rooted.empty : Draft.Rooted {} := ⟨nofun, nofun, fun h => absurd rfl h⟩

/-- A change that leaves the parents as they are. -/
theorem Draft.Rooted.of_parents_eq {d : Draft} {m : Map} (h : d.Rooted) (same : m.parents = d.map.parents) :
    Draft.Rooted { d with map := m } :=
  ⟨same ▸ h.opened_lt, same ▸ h.parent_lt, same ▸ h.one_root⟩

/-- A node joins a draft below one of its nodes, or as the first one. -/
theorem Draft.Rooted.addNode {d : Draft} {opened : List (Nat × Nat)} (h : d.Rooted)
    (kept : ∀ entry ∈ opened, entry ∈ d.opened) {indent : Nat} {id label : String} {shape : Shape}
    (notSecond : (opened.head?.map (·.2)).isNone = true → d.map.nodes = []) :
    Draft.Rooted ⟨d.map.addNode (opened.head?.map (·.2)) id label shape,
      (indent, d.map.nodes.length) :: opened⟩ := by
  have length : (d.map.addNode (opened.head?.map (·.2)) id label shape).parents.length =
      d.map.parents.length + 1 := by
    rw [Map.parents_addNode, List.length_append, List.length_singleton]
  have head_lt : ∀ p, opened.head?.map (·.2) = some p → p < d.map.parents.length := by
    intro p hp
    obtain ⟨entry, hentry, rfl⟩ := Option.map_eq_some_iff.1 hp
    exact h.opened_lt entry (kept entry (List.mem_of_head? hentry))
  refine ⟨fun entry hentry => ?_, fun p hp => ?_, fun _ => ?_⟩
  · refine length ▸ ?_
    rcases List.mem_cons.1 hentry with rfl | hentry
    · exact Nat.lt_succ_of_le (Nat.le_of_eq d.map.length_parents.symm)
    · exact Nat.lt_succ_of_lt (h.opened_lt entry (kept entry hentry))
  · refine length ▸ ?_
    rw [Map.parents_addNode, List.mem_append, List.mem_singleton] at hp
    exact Nat.lt_succ_of_lt (hp.elim (h.parent_lt p) fun new => head_lt p new.symm)
  · show (Map.parents _).count none = 1
    rw [Map.parents_addNode, List.count_append, List.count_singleton]
    cases hparent : opened.head?.map (·.2) with
    | none =>
      have empty := notSecond (by rw [hparent]; rfl)
      simp [Map.parents, empty]
    | some p =>
      have nonempty : d.map.parents ≠ [] := List.ne_nil_of_length_pos (Nat.zero_lt_of_lt (head_lt p hparent))
      simp [h.one_root nonempty]

theorem Draft.Rooted.apply {d d' : Draft} {line : Line} (h : d.Rooted) (e : d.apply line = .ok d') :
    d'.Rooted := by
  obtain ⟨offset, indent, statement⟩ := line
  cases statement with
  | node id label shape =>
    simp only [Draft.apply] at e
    split at e
    · cases e
    · rename_i notSecond
      cases e
      refine h.addNode (fun entry hentry => (List.dropWhile_suffix _).subset hentry) fun none => ?_
      simpa [none] using notSecond
  | icon name =>
    simp only [Draft.apply, Reading.bind_eq_ok, Reading.pure_eq_ok] at e
    obtain ⟨last, -, rfl⟩ := e
    exact h.of_parents_eq (d.map.parents_modify last fun _ => rfl)
  | classes names =>
    simp only [Draft.apply, Reading.bind_eq_ok, Reading.pure_eq_ok] at e
    obtain ⟨last, -, rfl⟩ := e
    exact h.of_parents_eq (d.map.parents_modify last fun _ => rfl)

/-- A map that is read has one root, and its parents are nodes of it, so nothing is wrong with it except
that it may be empty. -/
theorem issues_of_read {t : Tree} {m : Map} (e : read t = .ok m) : m.issues = Issue.ofCount m.entityCount := by
  simp only [read, Reading.bind_eq_ok, Reading.pure_eq_ok] at e
  obtain ⟨_, -, d, hd, rfl⟩ := e
  have rooted : d.Rooted := Reading.foldlM_invariant (fun _ _ _ h e => h.apply e) .empty hd
  exact Map.issues_eq rooted.one_root rooted.parent_lt

end DiagramText.Mindmap
