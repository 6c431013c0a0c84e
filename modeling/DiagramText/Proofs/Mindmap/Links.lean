import DiagramText.Proofs.Mindmap.Drafts
import Mathlib.Data.List.Induction
import Mathlib.Data.List.NodupEquivFin

/-!
# Parents, children and levels

A node may be added to a mind map below any place, whether a node is there or not. It is then listed among
the children of its parent, and one level below it, if the parent is there already, and otherwise not at all
(`Map.node?_addNode`). So in every map that additions make up the children of a node are the later nodes
that name it as their parent, and the level of a node follows that of an earlier parent (`Map.Linked`,
`linked_ofAdditions`).

Where all parents are earlier nodes this makes a map with one root a tree (`Map.IsTree`): the links to
children lead from the root to every node, in as many steps as its level says. The checks of a map ask for
one root and for parents that are nodes, not for earlier ones, and this is what a map without issues may
lack (`isTree_iff`): no links lead to a node that is its own parent (`valid_of_own_parent`).
-/

namespace DiagramText.Mindmap

/-! ## Additions -/

/-- A node to be added below a place. -/
structure Addition where
  parent : Option Nat
  id : String
  label : String
  shape : Shape := .plain
deriving DecidableEq

namespace Map

/-- The map with one more node. -/
def add (m : Map) (a : Addition) : Map := m.addNode a.parent a.id a.label a.shape

/-- The map that additions to an empty one make up. -/
def ofAdditions (additions : List Addition) : Map := additions.foldl add {}

theorem node?_modify (m : Map) (i : Nat) (change : Item → Item) (j : Nat) :
    (m.modify i change).node? j = (m.node? j).map fun node => if i = j then change node else node := by
  rw [node?, modify, List.getElem?_modify]
  by_cases here : i = j <;> simp [here, node?]

section

variable (m : Map) (parent : Option Nat) (id label : String) (shape : Shape)

/-- A new node stands at the end, and its parent lists it if it is there. -/
theorem node?_addNode (i : Nat) :
    (m.addNode parent id label shape).node? i =
      if i = m.nodes.length then
        some { id, label, shape, parent, level := (parent.bind m.node?).elim 0 (·.level + 1) }
      else (m.node? i).map fun node =>
        if parent = some i then { node with children := node.children ++ [m.nodes.length] } else node := by
  have withChild : (parent.elim m fun p => m.modify p fun node =>
        { node with children := node.children ++ [m.nodes.length] }).nodes[i]? =
      m.nodes[i]?.map fun node =>
        if parent = some i then { node with children := node.children ++ [m.nodes.length] } else node := by
    cases parent with
    | none => simp
    | some p =>
      rw [Option.elim_some, ← node?, node?_modify]
      simp only [Option.some.injEq]
      rfl
  have length : (parent.elim m fun p => m.modify p fun node =>
      { node with children := node.children ++ [m.nodes.length] }).nodes.length = m.nodes.length := by
    cases parent <;> simp [modify]
  rw [node?, addNode, List.getElem?_append, withChild, length]
  rcases Nat.lt_trichotomy i m.nodes.length with h | h | h
  · rw [if_pos h, if_neg (Nat.ne_of_lt h)]
    rfl
  · rw [if_neg (Nat.not_lt.2 (Nat.le_of_eq h.symm)), if_pos h, h, Nat.sub_self]
    rfl
  · rw [if_neg (Nat.lt_asymm h), if_neg (Nat.ne_of_gt h), node?, List.getElem?_eq_none (Nat.le_of_lt h),
      List.getElem?_eq_none (by simp only [List.length_singleton]; omega), Option.map_none]

theorem length_addNode : (m.addNode parent id label shape).nodes.length = m.nodes.length + 1 := by
  rw [← length_parents, parents_addNode, List.length_append, length_parents, List.length_singleton]

end

/-! ## What the links say -/

/-- The level of the node at a place. -/
def level? (m : Map) (i : Nat) : Option Nat := (m.node? i).map (·.level)

theorem parents_getElem? (m : Map) (i : Nat) : m.parents[i]? = (m.node? i).map Item.parent :=
  List.getElem?_map ..

/-- The children of a node are the later nodes that name it as their parent, and the level of a node is one
more than that of an earlier parent. -/
structure Linked (m : Map) : Prop where
  children : ∀ {i node}, m.node? i = some node →
    node.children = (List.range m.nodes.length).filter fun j => i < j ∧ m.parents[j]? = some (some i)
  level : ∀ {i node}, m.node? i = some node →
    node.level = ((node.parent.filter (· < i)).bind m.level?).elim 0 (· + 1)

namespace Linked

variable {m : Map}

theorem empty : Linked {} := ⟨nofun, nofun⟩

theorem mem_children (h : m.Linked) {i j : Nat} {node : Item} (at' : m.node? i = some node) :
    j ∈ node.children ↔ i < j ∧ m.parents[j]? = some (some i) := by
  rw [h.children at', List.mem_filter, List.mem_range, decide_eq_true_iff, and_iff_right_iff_imp]
  intro ⟨_, named⟩
  exact m.length_parents ▸ (List.getElem?_eq_some_iff.1 named).1

/-- The node of an earlier parent is one level above. -/
theorem level_of_parent (h : m.Linked) {i p : Nat} {node above : Item} (at' : m.node? i = some node)
    (parent : node.parent = some p) (earlier : p < i) (atParent : m.node? p = some above) :
    node.level = above.level + 1 := by
  rw [h.level at', parent, Option.filter_some, if_pos (decide_eq_true earlier), Option.bind_some, level?,
    atParent, Option.map_some, Option.elim_some]

theorem level_of_root (h : m.Linked) {i : Nat} {node : Item} (at' : m.node? i = some node)
    (root : node.parent = none) : node.level = 0 := by
  rw [h.level at', root]
  rfl

/-- A change to what a node shows leaves the links as they are. -/
theorem modify (h : m.Linked) (i : Nat) {change : Item → Item}
    (parent : ∀ node, (change node).parent = node.parent)
    (children : ∀ node, (change node).children = node.children)
    (level : ∀ node, (change node).level = node.level) : (m.modify i change).Linked := by
  have length : (m.modify i change).nodes.length = m.nodes.length := List.length_modify ..
  have levels : (m.modify i change).level? = m.level? := by
    funext j
    rw [level?, node?_modify, Option.map_map, level?]
    by_cases here : i = j <;> simp [here, Function.comp_def, level]
  refine ⟨fun {j node} at' => ?_, fun {j node} at' => ?_⟩
  all_goals
    rw [node?_modify, Option.map_eq_some_iff] at at'
    obtain ⟨old, atOld, rfl⟩ := at'
  · rw [length, m.parents_modify i parent, ← h.children atOld]
    split
    · exact children old
    · rfl
  · rw [levels]
    refine Eq.trans ?_ ((h.level atOld).trans ?_) <;> split
    · exact level old
    · rfl
    · rw [parent]
    · rfl

end Linked

theorem level?_addNode (m : Map) (parent : Option Nat) (id label : String) (shape : Shape) (i : Nat) :
    (m.addNode parent id label shape).level? i =
      if i = m.nodes.length then some ((parent.bind m.level?).elim 0 (· + 1)) else m.level? i := by
  rw [level?, node?_addNode]
  split
  · cases parent with
    | none => rfl
    | some p =>
      simp only [Option.map_some, Option.bind_some, level?]
      cases m.node? p <;> rfl
  · rw [Option.map_map, level?]
    congr 1
    funext node
    simp only [Function.comp_apply]
    split <;> rfl

/-- One more node, below any place, keeps the links. -/
theorem Linked.addNode {m : Map} (h : m.Linked) (parent : Option Nat) (id label : String) (shape : Shape) :
    (m.addNode parent id label shape).Linked := by
  have earlierSame : ∀ {i : Nat} {p : Option Nat}, i ≤ m.nodes.length →
      (p.filter (· < i)).bind (m.addNode parent id label shape).level? =
        (p.filter (· < i)).bind m.level? := by
    intro i p within
    cases hp : p.filter (· < i) with
    | none => rfl
    | some q =>
      have : q < i := of_decide_eq_true (Option.filter_eq_some_iff.1 hp).2
      rw [Option.bind_some, Option.bind_some, level?_addNode, if_neg (by omega)]
  refine ⟨fun {i node} at' => ?_, fun {i node} at' => ?_⟩
  all_goals
    rw [node?_addNode] at at'
    split at at'
  · -- nothing stands behind the new node
    rename_i new
    cases at'
    symm
    rw [List.filter_eq_nil_iff, length_addNode, ← new]
    intro j hj
    have := List.mem_range.1 hj
    simp only [decide_eq_true_eq]
    omega
  · obtain ⟨old, atOld, rfl⟩ := Option.map_eq_some_iff.1 at'
    have within : i < m.nodes.length := (List.getElem?_eq_some_iff.1 atOld).1
    have before : (List.range m.nodes.length).filter (fun j =>
        i < j ∧ (m.parents ++ [parent])[j]? = some (some i)) = old.children := by
      rw [h.children atOld]
      refine List.filter_congr fun j hj => ?_
      rw [List.getElem?_append_left (m.length_parents ▸ List.mem_range.1 hj)]
    have last : (m.parents ++ [parent])[m.nodes.length]? = some parent := by
      rw [← m.length_parents]
      exact List.getElem?_concat_length ..
    rw [length_addNode, List.range_succ, List.filter_append, parents_addNode, before, List.filter_singleton,
      last]
    by_cases named : parent = some i <;> simp [named, within]
  · rename_i new
    cases at'
    rw [earlierSame (Nat.le_of_eq new), new]
    cases parent with
    | none => rfl
    | some p =>
      by_cases earlier : p < m.nodes.length
      · simp only [Option.filter_some, decide_eq_true earlier, if_true, Option.bind_some, level?]
        cases m.node? p <;> rfl
      · have missing : m.node? p = none := List.getElem?_eq_none (Nat.not_lt.1 earlier)
        simp [Option.filter_some, earlier, missing]
  · obtain ⟨old, atOld, rfl⟩ := Option.map_eq_some_iff.1 at'
    have within : i < m.nodes.length := (List.getElem?_eq_some_iff.1 atOld).1
    rw [earlierSame (Nat.le_of_lt within)]
    refine Eq.trans ?_ ((h.level atOld).trans ?_) <;> split <;> rfl

theorem linked_ofAdditions (additions : List Addition) : (ofAdditions additions).Linked := by
  induction additions using List.reverseRecOn with
  | nil => exact .empty
  | append_singleton before a ih =>
    rw [ofAdditions, List.foldl_append]
    exact ih.addNode a.parent a.id a.label a.shape

theorem parents_ofAdditions (additions : List Addition) :
    (ofAdditions additions).parents = additions.map (·.parent) := by
  induction additions using List.reverseRecOn with
  | nil => rfl
  | append_singleton before a ih =>
    rw [ofAdditions, List.foldl_append, List.map_append, ← ih]
    exact parents_addNode ..

/-! ## Trees -/

/-- The links to children lead from `i` to a place in a number of steps. -/
inductive Leads (m : Map) (i : Nat) : Nat → Nat → Prop
  | here : Leads m i i 0
  | child {j k n : Nat} {node : Item} (path : Leads m i j n) (at' : m.node? j = some node)
      (listed : k ∈ node.children) : Leads m i k (n + 1)

/-- The node at a place has no parent. -/
def IsRoot (m : Map) (i : Nat) : Prop := m.parents[i]? = some none

/-- The links to children lead from the only root to all nodes, in as many steps as their level says, and
they are the inverse of the links to parents. -/
structure IsTree (m : Map) : Prop where
  one_root : ∃! r, m.IsRoot r
  reached : ∀ {r i node}, m.IsRoot r → m.node? i = some node → m.Leads r i node.level
  distance : ∀ {r i node n}, m.IsRoot r → m.node? i = some node → m.Leads r i n → n = node.level
  inverse : ∀ {i node}, m.node? i = some node →
    node.children.Nodup ∧ ∀ j, j ∈ node.children ↔ m.parents[j]? = some (some i)

/-- The parent of each node stands before it. -/
def ParentsEarlier (m : Map) : Prop := ∀ i p : Nat, m.parents[i]? = some (some p) → p < i

namespace Linked

variable {m : Map}

/-- What the links lead to from a root is as many levels below as it takes steps. -/
theorem level_of_leads (h : m.Linked) {r i n : Nat} (root : m.IsRoot r) (path : m.Leads r i n) :
    m.level? i = some n := by
  induction path with
  | here =>
    obtain ⟨node, at', none⟩ := Option.map_eq_some_iff.1 ((m.parents_getElem? r).symm.trans root)
    rw [level?, at', Option.map_some, h.level_of_root at' none]
  | @child j k n node _ at' listed ih =>
    obtain ⟨later, named⟩ := (h.mem_children at').1 listed
    obtain ⟨below, atBelow, parent⟩ := Option.map_eq_some_iff.1 (m.parents_getElem? k ▸ named)
    have above : node.level = n := by simpa [level?, at'] using ih
    rw [level?, atBelow, Option.map_some, h.level_of_parent atBelow parent later at', above]

/-- Where each parent is an earlier node, the links lead from the root to all nodes. -/
theorem leads_of_parentsEarlier (h : m.Linked) (earlier : m.ParentsEarlier) (one_root : ∃! r, m.IsRoot r)
    {r : Nat} (root : m.IsRoot r) : ∀ {i node}, m.node? i = some node → m.Leads r i node.level := by
  intro i
  induction i using Nat.strong_induction_on with
  | _ i ih =>
    intro node at'
    have known : m.parents[i]? = some node.parent := by rw [parents_getElem?, at', Option.map_some]
    cases parent : node.parent with
    | none =>
      have same : i = r := one_root.unique (known.trans (congrArg some parent)) root
      rw [h.level_of_root at' parent, same]
      exact .here
    | some p =>
      have before : p < i := earlier i p (parent ▸ known)
      obtain ⟨above, atParent⟩ : ∃ above, m.node? p = some above :=
        ⟨_, List.getElem?_eq_getElem (before.trans (List.getElem?_eq_some_iff.1 at').1)⟩
      rw [h.level_of_parent at' parent before atParent]
      exact .child (ih p before atParent) atParent ((h.mem_children atParent).2 ⟨before, parent ▸ known⟩)

theorem isTree (h : m.Linked) (one_root : ∃! r, m.IsRoot r) (earlier : m.ParentsEarlier) : m.IsTree where
  one_root := one_root
  reached root at' := h.leads_of_parentsEarlier earlier one_root root at'
  distance root at' path := by simpa [level?, at', eq_comm] using h.level_of_leads root path
  inverse {i node} at' := by
    refine ⟨?_, fun j => ?_⟩
    · rw [h.children at']
      exact List.nodup_range.filter _
    · rw [h.mem_children at', and_iff_right_iff_imp]
      exact earlier j i

/-- No links lead from a root to a node whose parent does not stand before it. -/
theorem not_leads (h : m.Linked) {r i p n : Nat} (named : m.parents[i]? = some (some p)) (late : i ≤ p)
    (root : m.IsRoot r) : ¬m.Leads r i n := by
  intro path
  cases path with
  | here => cases root.symm.trans named
  | child _ at' listed =>
    obtain ⟨later, named'⟩ := (h.mem_children at').1 listed
    cases named'.symm.trans named
    exact absurd later (Nat.not_lt.2 late)

theorem parentsEarlier (h : m.Linked) (tree : m.IsTree) : m.ParentsEarlier := by
  intro i p named
  obtain ⟨r, root, -⟩ := tree.one_root
  obtain ⟨node, at', -⟩ := Option.map_eq_some_iff.1 ((m.parents_getElem? i).symm.trans named)
  exact Nat.not_le.1 fun late => h.not_leads named late root (tree.reached root at')

end Linked

/-- An element that a list has once has one place in it. -/
theorem existsUnique_getElem? {α : Type} [BEq α] [LawfulBEq α] {xs : List α} {x : α} (once : xs.count x = 1) :
    ∃! i : Nat, xs[i]? = some x := by
  obtain ⟨i, at'⟩ := List.getElem?_of_mem (List.count_pos_iff.1 (once ▸ Nat.one_pos))
  have notTwice : ¬List.Duplicate x xs := fun twice => by
    have : (List.replicate 2 x).Sublist xs := List.duplicate_iff_sublist.1 twice
    exact absurd (List.replicate_sublist_iff.1 this) (by omega)
  have notLater : ∀ {i j : Nat}, xs[i]? = some x → xs[j]? = some x → j ≤ i := fun {i j} hi hj => by
    by_contra later
    obtain ⟨hi', ei⟩ := List.getElem?_eq_some_iff.1 hi
    obtain ⟨hj', ej⟩ := List.getElem?_eq_some_iff.1 hj
    exact notTwice (List.duplicate_iff_exists_distinct_get.2
      ⟨⟨i, hi'⟩, ⟨j, hj'⟩, Nat.not_le.1 later, ei.symm, ej.symm⟩)
  exact ⟨i, at', fun j hj => Nat.le_antisymm (notLater at' hj) (notLater hj at')⟩

theorem existsUnique_isRoot {m : Map} (valid : m.issues = []) : ∃! r, m.IsRoot r := by
  have nonempty : ¬m.nodes.isEmpty = true := fun empty => by
    rw [issues, if_pos empty] at valid
    cases valid
  rw [issues, if_neg nonempty, List.append_eq_nil_iff, ite_eq_left_iff] at valid
  have roots : m.nodes.countP (·.parent.isNone) = 1 := not_not.1 fun several =>
    List.cons_ne_nil _ _ (valid.1 several)
  refine existsUnique_getElem? ?_
  rw [parents, List.count, List.countP_map, ← roots]
  exact List.countP_congr fun node _ => by cases h : node.parent <;> simp [h]

theorem parentsEarlier_ofAdditions {additions : List Addition} :
    (ofAdditions additions).ParentsEarlier ↔
      ∀ (i p : Nat) (a : Addition), additions[i]? = some a → a.parent = some p → p < i := by
  simp only [ParentsEarlier, parents_ofAdditions, List.getElem?_map, Option.map_eq_some_iff]
  exact ⟨fun h i p a at' parent => h i p ⟨a, at', parent⟩,
    fun h i p ⟨a, at', parent⟩ => h i p a at' parent⟩

/-- A map that has no issues has one root. It is a tree if, and only if, all nodes were added after their
parents: the links lead from the root to no node that was not. -/
theorem isTree_iff {additions : List Addition} (valid : (ofAdditions additions).issues = []) :
    (∃! r, (ofAdditions additions).IsRoot r) ∧
      ((ofAdditions additions).IsTree ↔
        ∀ (i p : Nat) (a : Addition), additions[i]? = some a → a.parent = some p → p < i) ∧
      ∀ (i p : Nat) (a : Addition), additions[i]? = some a → a.parent = some p → i ≤ p →
        ∀ r n, (ofAdditions additions).IsRoot r → ¬(ofAdditions additions).Leads r i n := by
  have one_root := existsUnique_isRoot valid
  have linked := linked_ofAdditions additions
  refine ⟨one_root, ?_, fun i p a at' parent late r n root => linked.not_leads ?_ late root⟩
  · rw [← parentsEarlier_ofAdditions]
    exact ⟨linked.parentsEarlier, linked.isTree one_root⟩
  · rw [parents_ofAdditions, List.getElem?_map, at', Option.map_some, parent]

theorem isTree_three :
    let additions : List Addition :=
      [{ parent := none, id := "r", label := "r" }, { parent := some 0, id := "a", label := "a" },
        { parent := some 1, id := "b", label := "b" }]
    (ofAdditions additions).issues = [] ∧ (ofAdditions additions).IsTree := by
  intro additions
  have valid : (ofAdditions additions).issues = [] := by decide
  refine ⟨valid, (isTree_iff valid).2.1.2 fun i p a at' parent => ?_⟩
  match i with
  | 0 => cases at'; cases parent
  | 1 | 2 => cases at'; cases parent; decide
  | i + 3 => cases at'

/-- A node below itself is no child of any node, though this is no issue. -/
theorem valid_of_own_parent :
    let m := ofAdditions
      [{ parent := none, id := "r", label := "r" }, { parent := some 1, id := "a", label := "a" }]
    m.issues = [] ∧ m.IsRoot 0 ∧ (∀ n, ¬m.Leads 0 1 n) ∧ ¬m.IsTree := by
  intro m
  have linked : m.Linked := linked_ofAdditions _
  have root : m.IsRoot 0 := rfl
  have own : m.parents[1]? = some (some 1) := rfl
  exact ⟨by decide, root, fun n => linked.not_leads own (Nat.le_refl 1) root, fun tree =>
    absurd (linked.parentsEarlier tree 1 1 own) (Nat.lt_irrefl 1)⟩

end Map
end DiagramText.Mindmap
