import DiagramText.Proofs.Mindmap.Lines
import DiagramText.Proofs.Mindmap.Links
import Mathlib.Order.Bounds.Basic

/-!
# Nesting by indentation

The open nodes of a draft stand for all of its nodes: no two of them are indented alike, the last one most,
and at or after every node is an open one that is indented no more (`Opens`). So the first open node that is
indented less than a line is the last one of all nodes that are (`Opens.nearest`), and the line goes below
it.

Lines can be nested if they begin with a node and no node after it is indented as little (`Nestable`). Then,
and only then, they make up a mind map, in which the nodes are nested as the lines are indented and are
decorated by the lines behind them (`Nested`, `nested_of_parse`).
-/

namespace DiagramText.Mindmap

open Reading

/-! ## Open nodes -/

/-- The parent of the `i`-th entry is the last one before it that is smaller; only the first has none. -/
def IsParent (indents : List Nat) (i : Nat) : Option Nat → Prop
  | none => i = 0
  | some p => IsGreatest {j | j < i ∧ ∃ x ∈ indents[j]?, ∃ y ∈ indents[i]?, x < y} p

/-- The open nodes where the nodes so far have these indentations. -/
structure Opens (indents : List Nat) (opened : List (Nat × Nat)) : Prop where
  known : ∀ e ∈ opened, indents[e.2]? = some e.1
  falling : opened.Pairwise fun e e' => e'.1 < e.1 ∧ e'.2 < e.2
  covered : ∀ j x, indents[j]? = some x → ∃ e ∈ opened, j ≤ e.2 ∧ e.1 ≤ x

namespace Opens

variable {indents : List Nat} {opened : List (Nat × Nat)}

theorem nil : Opens [] [] := ⟨nofun, .nil, nofun⟩

/-- What is left of the open nodes are those that are indented less. -/
theorem mem_dropWhile (h : Opens indents opened) (indent : Nat) (e : Nat × Nat) :
    e ∈ opened.dropWhile (indent ≤ ·.1) ↔ e ∈ opened ∧ e.1 < indent := by
  have falling := h.falling
  clear h
  induction opened with
  | nil => simp
  | cons first opened ih =>
    rw [List.pairwise_cons] at falling
    rw [List.dropWhile_cons]
    by_cases deeper : indent ≤ first.1
    · rw [if_pos (decide_eq_true deeper), List.mem_cons]
      refine (ih falling.2).trans (and_congr_left fun less => (or_iff_right ?_).symm)
      rintro rfl
      exact absurd less (Nat.not_lt.2 deeper)
    · rw [if_neg (by simpa using deeper), iff_self_and]
      intro he
      rcases List.mem_cons.1 he with rfl | he
      · exact Nat.not_le.1 deeper
      · exact (falling.1 e he).1.trans (Nat.not_le.1 deeper)

/-- The first open node that is indented less is the last one of all nodes that are. -/
theorem nearest (h : Opens indents opened) (indent : Nat) :
    match ((opened.dropWhile (indent ≤ ·.1)).head?.map (·.2)) with
    | none => ∀ x ∈ indents, indent ≤ x
    | some p => IsGreatest {j | ∃ x ∈ indents[j]?, x < indent} p := by
  have kept := h.mem_dropWhile indent
  have falling := h.falling.sublist (List.dropWhile_sublist (indent ≤ ·.1))
  cases hopened : opened.dropWhile (indent ≤ ·.1) with
  | nil =>
    intro x hx
    obtain ⟨j, hj⟩ := List.getElem?_of_mem hx
    obtain ⟨e, he, -, le⟩ := h.covered j x hj
    by_contra less
    have := (kept e).2 ⟨he, by omega⟩
    rw [hopened] at this
    cases this
  | cons first rest =>
    rw [hopened] at kept falling
    obtain ⟨hfirst, less⟩ := (kept first).1 List.mem_cons_self
    refine ⟨⟨first.1, h.known first hfirst, less⟩, ?_⟩
    rintro j ⟨x, hx, lt⟩
    obtain ⟨e, he, le, smaller⟩ := h.covered j x hx
    rcases List.mem_cons.1 ((kept e).2 ⟨he, by omega⟩) with rfl | he
    · exact le
    · exact le.trans (Nat.le_of_lt ((List.pairwise_cons.1 falling).1 e he).2)

/-- A new node closes those that are indented as much or more. -/
theorem concat (h : Opens indents opened) (indent : Nat) :
    Opens (indents ++ [indent]) ((indent, indents.length) :: opened.dropWhile (indent ≤ ·.1)) where
  known e he := by
    rcases List.mem_cons.1 he with rfl | he
    · exact List.getElem?_concat_length ..
    · have known := h.known e ((h.mem_dropWhile indent e).1 he).1
      rw [List.getElem?_append_left (List.getElem?_eq_some_iff.1 known).1, known]
  falling := by
    refine List.pairwise_cons.2 ⟨fun e he => ?_, h.falling.sublist (List.dropWhile_sublist _)⟩
    obtain ⟨he, less⟩ := (h.mem_dropWhile indent e).1 he
    exact ⟨less, (List.getElem?_eq_some_iff.1 (h.known e he)).1⟩
  covered j x hj := by
    rw [List.getElem?_append] at hj
    split at hj
    · obtain ⟨e, he, le, smaller⟩ := h.covered j x hj
      by_cases less : e.1 < indent
      · exact ⟨e, List.mem_cons_of_mem _ ((h.mem_dropWhile indent e).2 ⟨he, less⟩), le, smaller⟩
      · refine ⟨_, List.mem_cons_self, ?_, ?_⟩ <;> simp only <;> omega
    · rename_i behind
      obtain ⟨here, rfl⟩ : j - indents.length = 0 ∧ indent = x := by
        rw [List.getElem?_singleton] at hj
        split at hj
        · exact ⟨‹_›, Option.some.inj hj⟩
        · cases hj
      exact ⟨_, List.mem_cons_self, by simp only; omega, Nat.le_refl _⟩

end Opens

/-! ## Lines that can be nested -/

/-- The lines that are nodes. -/
def nodeLines (ls : List Line) : List Line := ls.filter Line.isNode

/-- The indentations of the nodes. -/
def indents (ls : List Line) : List Nat := (nodeLines ls).map Line.indent

/-- The lines begin with a node, if there are any, and all other nodes are indented more than the first. -/
structure Nestable (ls : List Line) : Prop where
  node_first : ∀ line ∈ ls.head?, line.isNode = true
  deeper : ∀ first rest, indents ls = first :: rest → ∀ x ∈ rest, first < x

/-- What the lines say that decorate the `i`-th node: those with `i + 1` nodes before them. -/
def decorations (ls : List Line) (i : Nat) : List Statement :=
  (ls.zipIdx.filter fun e => !e.1.isNode && (nodeLines (ls.take e.2)).length == i + 1).map (·.1.statement)

/-- The icon that the statement is. -/
def Statement.icon? : Statement → Option String
  | icon name => some name
  | _ => none

/-- The classes that the statement lists. -/
def Statement.classNames : Statement → List String
  | classes names => names
  | _ => []

/-- The nodes of the map are the nodes among the lines, in their order. Each is below the last one before it
that is indented less, on the level behind that of its parent, and has as children, in order, the nodes that
are below it. Its decorations are those of the lines behind it up to the next node. -/
structure Nested (ls : List Line) (m : Map) : Prop where
  nodes : m.nodes.map (fun node => Statement.node node.id node.label node.shape) =
    (nodeLines ls).map Line.statement
  parent : ∀ {i node}, m.node? i = some node → IsParent (indents ls) i node.parent
  level_root : ∀ {i node}, m.node? i = some node → node.parent = none → node.level = 0
  level : ∀ {i node p above}, m.node? i = some node → node.parent = some p → m.node? p = some above →
    node.level = above.level + 1
  children : ∀ {i node}, m.node? i = some node →
    node.children = (List.range m.nodes.length).filter fun j => m.parents[j]? = some (some i)
  icon : ∀ {i node}, m.node? i = some node →
    node.icon = ((decorations ls i).filterMap Statement.icon?).getLast?
  classes : ∀ {i node}, m.node? i = some node →
    node.classes = (decorations ls i).flatMap Statement.classNames

section

variable {ls : List Line} {line : Line}

theorem nodeLines_concat (ls : List Line) (line : Line) :
    nodeLines (ls ++ [line]) = nodeLines ls ++ if line.isNode then [line] else [] := by
  rw [nodeLines, List.filter_append, List.filter_singleton, nodeLines]
  cases line.isNode <;> rfl

theorem indents_concat (ls : List Line) (line : Line) :
    indents (ls ++ [line]) = indents ls ++ if line.isNode then [line.indent] else [] := by
  rw [indents, nodeLines_concat, List.map_append, indents]
  cases line.isNode <;> rfl

theorem indents_concat_node (ls : List Line) (node : line.isNode = true) :
    indents (ls ++ [line]) = indents ls ++ [line.indent] := by
  rw [indents_concat, node, if_pos rfl]

theorem indents_concat_decoration (ls : List Line) (decoration : line.isNode = false) :
    indents (ls ++ [line]) = indents ls := by
  rw [indents_concat, decoration]
  exact List.append_nil _

theorem length_indents (ls : List Line) : (indents ls).length = (nodeLines ls).length := List.length_map ..

theorem decorations_concat (ls : List Line) (line : Line) (i : Nat) :
    decorations (ls ++ [line]) i = decorations ls i ++
      if !line.isNode && (nodeLines ls).length == i + 1 then [line.statement] else [] := by
  have before : ls.zipIdx.filter (fun e =>
        !e.1.isNode && (nodeLines ((ls ++ [line]).take e.2)).length == i + 1) =
      ls.zipIdx.filter fun e => !e.1.isNode && (nodeLines (ls.take e.2)).length == i + 1 := by
    refine List.filter_congr fun e he => ?_
    have within : e.2 ≤ ls.length := Nat.le_of_lt (by simpa using List.snd_lt_of_mem_zipIdx he)
    rw [List.take_append_of_le_length within]
  rw [decorations, List.zipIdx_append, List.filter_append, List.map_append, before, decorations]
  congr 1
  rw [List.zipIdx_cons, List.zipIdx_nil, List.filter_singleton, Nat.zero_add, List.take_left' rfl]
  cases !line.isNode && (nodeLines ls).length == i + 1 <;> rfl

/-- Nothing decorates a node that is not there yet. -/
theorem decorations_eq_nil {i : Nat} (h : (nodeLines ls).length ≤ i) : decorations ls i = [] := by
  rw [decorations, List.map_eq_nil_iff, List.filter_eq_nil_iff]
  rintro ⟨line, k⟩ -
  have := ((List.take_sublist k ls).filter Line.isNode).length_le
  rw [nodeLines] at h
  simp only [nodeLines, Bool.and_eq_true, beq_iff_eq, not_and]
  omega

theorem Nestable.of_append {more : List Line} (h : Nestable (ls ++ more)) : Nestable ls where
  node_first line hline := h.node_first line (by
    rw [List.head?_append, Option.mem_def.1 hline, Option.some_or]
    rfl)
  deeper first rest e x hx := by
    have longer : indents (ls ++ more) = first :: (rest ++ indents more) := by
      rw [indents, nodeLines, List.filter_append, List.map_append]
      exact congrArg (· ++ indents more) e
    exact h.deeper first _ longer x (List.mem_append_left _ hx)

end

/-! ## Parents -/

section

variable {indents : List Nat} {i : Nat}

/-- What comes later does not change the parent of an entry. -/
theorem isParent_append (h : i < indents.length) (more : List Nat) (o : Option Nat) :
    IsParent (indents ++ more) i o ↔ IsParent indents i o := by
  cases o with
  | none => rfl
  | some p =>
    have same : {j | j < i ∧ ∃ x ∈ (indents ++ more)[j]?, ∃ y ∈ (indents ++ more)[i]?, x < y} =
        {j | j < i ∧ ∃ x ∈ indents[j]?, ∃ y ∈ indents[i]?, x < y} := by
      ext j
      refine and_congr_right fun lt => ?_
      rw [List.getElem?_append_left h, List.getElem?_append_left (lt.trans h)]
    rw [IsParent, same, IsParent]

theorem isParent_last {indent p : Nat} :
    IsParent (indents ++ [indent]) indents.length (some p) ↔
      IsGreatest {j | ∃ x ∈ indents[j]?, x < indent} p := by
  have same : {j | j < indents.length ∧ ∃ x ∈ (indents ++ [indent])[j]?,
        ∃ y ∈ (indents ++ [indent])[indents.length]?, x < y} =
      {j | ∃ x ∈ indents[j]?, x < indent} := by
    ext j
    rw [Set.mem_ofPred_eq, Set.mem_ofPred_eq, List.getElem?_concat_length]
    constructor
    · rintro ⟨lt, x, hx, y, ⟨⟩, less⟩
      rw [List.getElem?_append_left lt] at hx
      exact ⟨x, hx, less⟩
    · rintro ⟨x, hx, less⟩
      have lt := (List.getElem?_eq_some_iff.1 hx).1
      exact ⟨lt, x, by rwa [List.getElem?_append_left lt], indent, rfl, less⟩
  rw [IsParent, same]

end

/-! ## Drafts -/

/-- The draft is what the lines make up. -/
structure Draft.Follows (ls : List Line) (d : Draft) : Prop where
  nestable : Nestable ls
  opens : Opens (indents ls) d.opened
  nodes : d.map.nodes.map (fun node => Statement.node node.id node.label node.shape) =
    (nodeLines ls).map Line.statement
  parent : ∀ {i o}, d.map.parents[i]? = some o → IsParent (indents ls) i o
  linked : d.map.Linked
  decorated : ∀ {i node}, d.map.node? i = some node →
    node.icon = ((decorations ls i).filterMap Statement.icon?).getLast? ∧
      node.classes = (decorations ls i).flatMap Statement.classNames

/-- The reading is a draft that follows the lines, or a fault if they cannot be nested. -/
def Makes (ls : List Line) : Reading Fallacy Draft → Prop
  | .ok d => d.Follows ls
  | .error _ => ¬Nestable ls

namespace Draft.Follows

variable {ls : List Line} {d : Draft} {line : Line}

theorem empty : Draft.Follows [] {} where
  nestable := ⟨nofun, nofun⟩
  opens := .nil
  nodes := rfl
  parent := nofun
  linked := .empty
  decorated := nofun

theorem length_nodes (h : d.Follows ls) : d.map.nodes.length = (indents ls).length := by
  rw [length_indents, ← List.length_map Line.statement, ← h.nodes, List.length_map]

theorem nodes_eq_nil (h : d.Follows ls) : d.map.nodes = [] ↔ indents ls = [] := by
  rw [← List.length_eq_zero_iff, h.length_nodes, List.length_eq_zero_iff]

theorem node_first_concat (h : Nestable ls) (node : ls = [] → line.isNode = true) :
    ∀ first ∈ (ls ++ [line]).head?, first.isNode = true := by
  cases ls with
  | nil => simpa using node rfl
  | cons first ls => simpa using h.node_first first rfl

/-- A node can come next if there is none yet or one that is indented less. -/
theorem nestable_concat (h : d.Follows ls) (node : line.isNode = true) : Nestable (ls ++ [line]) ↔
    ((d.opened.dropWhile (line.indent ≤ ·.1)).head?.map (·.2) = none → d.map.nodes = []) := by
  have nearest := h.opens.nearest line.indent
  have longer := indents_concat_node ls node
  rw [h.nodes_eq_nil]
  constructor
  · intro nestable none
    rw [none] at nearest
    cases before : indents ls with
    | nil => rfl
    | cons first rest =>
      rw [before] at longer nearest
      have := nestable.deeper first (rest ++ [line.indent]) longer line.indent (by simp)
      exact absurd (nearest first List.mem_cons_self) (Nat.not_le.2 this)
  · intro found
    refine ⟨node_first_concat h.nestable fun _ => node, fun first rest e x hx => ?_⟩
    rw [longer] at e
    cases before : indents ls with
    | nil =>
      rw [before] at e
      cases e
      cases hx
    | cons first' rest' =>
      rw [before] at e
      obtain ⟨rfl, rfl⟩ := List.cons.inj e
      have deeper := h.nestable.deeper first' rest' before
      rcases List.mem_append.1 hx with hx | hx
      · exact deeper x hx
      · obtain rfl := List.mem_singleton.1 hx
        cases parent : (d.opened.dropWhile (line.indent ≤ ·.1)).head?.map (·.2) with
        | none => cases before.symm.trans (found parent)
        | some p =>
          rw [parent] at nearest
          obtain ⟨⟨y, hy, less⟩, -⟩ := nearest
          rcases List.mem_cons.1 (before ▸ List.mem_of_getElem? hy) with rfl | hy
          · exact less
          · exact (deeper y hy).trans less

theorem isParent_new (h : d.Follows ls) (node : line.isNode = true) (nestable : Nestable (ls ++ [line])) :
    IsParent (indents ls ++ [line.indent]) (indents ls).length
      ((d.opened.dropWhile (line.indent ≤ ·.1)).head?.map (·.2)) := by
  have nearest := h.opens.nearest line.indent
  cases parent : (d.opened.dropWhile (line.indent ≤ ·.1)).head?.map (·.2) with
  | none =>
    have first : indents ls = [] := h.nodes_eq_nil.1 ((h.nestable_concat node).1 nestable parent)
    rw [first]
    rfl
  | some p =>
    rw [parent] at nearest
    exact isParent_last.2 nearest

theorem addNode (h : d.Follows ls) {id label : String} {shape : Shape}
    (e : line.statement = .node id label shape) (nestable : Nestable (ls ++ [line])) :
    Draft.Follows (ls ++ [line])
      ⟨d.map.addNode ((d.opened.dropWhile (line.indent ≤ ·.1)).head?.map (·.2)) id label shape,
        (line.indent, d.map.nodes.length) :: d.opened.dropWhile (line.indent ≤ ·.1)⟩ := by
  have node : line.isNode = true := by rw [Line.isNode, e]; rfl
  have longer := indents_concat_node ls node
  have undecorated : ∀ i, decorations (ls ++ [line]) i = decorations ls i := fun i => by
    rw [decorations_concat, node]
    exact List.append_nil _
  refine ⟨nestable, ?_, ?_, fun {i o} at' => ?_, h.linked.addNode .., fun {i item} at' => ?_⟩
  · rw [longer, h.length_nodes]
    exact h.opens.concat line.indent
  · rw [Map.map_addNode _ _ _ _ _ fun _ _ => rfl, h.nodes, nodeLines_concat, node, if_pos rfl,
      List.map_append, List.map_singleton, e]
  · rw [longer]
    rw [Map.parents_addNode, List.getElem?_append, Map.length_parents, h.length_nodes] at at'
    split at at'
    · rename_i within
      exact (isParent_append within _ _).2 (h.parent at')
    · rename_i notWithin
      rw [List.getElem?_singleton] at at'
      split at at'
      · obtain rfl : i = (indents ls).length := by omega
        exact Option.some.inj at' ▸ h.isParent_new node nestable
      · cases at'
  · rw [Map.node?_addNode] at at'
    split at at'
    · rename_i last
      obtain rfl := Option.some.inj at'
      rw [undecorated, decorations_eq_nil (by rw [last, h.length_nodes, length_indents])]
      exact ⟨rfl, rfl⟩
    · obtain ⟨old, atOld, rfl⟩ := Option.map_eq_some_iff.1 at'
      rw [undecorated]
      have := h.decorated atOld
      split <;> exact this

theorem indents_ne_nil (h : Nestable ls) (hne : ls ≠ []) : indents ls ≠ [] := by
  cases ls with
  | nil => exact absurd rfl hne
  | cons first ls =>
    rw [indents, nodeLines, List.filter_cons, if_pos (h.node_first first rfl)]
    exact List.cons_ne_nil _ _

/-- A decoration can come next if there is a node. -/
theorem nestable_concat_decoration (h : d.Follows ls) (decoration : line.isNode = false) :
    Nestable (ls ++ [line]) ↔ d.last?.isSome = true := by
  have same := indents_concat_decoration ls decoration
  have last : d.last?.isSome = true ↔ d.map.nodes ≠ [] := by
    unfold Draft.last?
    split <;> simp_all
  have some : d.map.nodes ≠ [] ↔ ls ≠ [] := by
    rw [Ne, h.nodes_eq_nil]
    exact ⟨fun hne e => hne (e ▸ rfl), indents_ne_nil h.nestable⟩
  rw [last, some]
  constructor
  · rintro nestable rfl
    exact absurd (nestable.node_first line rfl) (by rw [decoration]; exact Bool.false_ne_true)
  · intro hne
    exact ⟨node_first_concat h.nestable fun e => absurd e hne, fun first rest e =>
      h.nestable.deeper first rest (same ▸ e)⟩

/-- A line that decorates the last node. -/
theorem decorate (h : d.Follows ls) (decoration : line.isNode = false) {last : Nat}
    (hlast : d.last? = some last) {change : Item → Item}
    (change_eq : ∀ node, change node = { node with
      icon := line.statement.icon?.or node.icon, classes := node.classes ++ line.statement.classNames }) :
    Draft.Follows (ls ++ [line]) { d with map := d.map.modify last change } := by
  have same := indents_concat_decoration ls decoration
  have length : (nodeLines ls).length = last + 1 := by
    rw [Draft.last?] at hlast
    split at hlast
    · cases hlast
    · rename_i nonempty
      have := List.length_pos_iff.2 (mt List.isEmpty_iff.2 nonempty)
      rw [← length_indents, ← h.length_nodes, ← Option.some.inj hlast]
      omega
  refine ⟨(h.nestable_concat_decoration decoration).2 (hlast ▸ rfl), ?_, ?_, fun {i o} at' => ?_, ?_,
    fun {i node} at' => ?_⟩
  · rw [same]
    exact h.opens
  · rw [Map.map_modify _ _ fun node => by rw [change_eq], h.nodes, nodeLines_concat, decoration]
    exact congrArg _ (List.append_nil _).symm
  · rw [same]
    rw [Map.parents_modify _ _ fun node => by rw [change_eq]] at at'
    exact h.parent at'
  · exact h.linked.modify last (fun node => by rw [change_eq]) (fun node => by rw [change_eq])
      fun node => by rw [change_eq]
  · rw [Map.node?_modify] at at'
    obtain ⟨old, atOld, rfl⟩ := Option.map_eq_some_iff.1 at'
    obtain ⟨icon, classes⟩ := h.decorated atOld
    rw [decorations_concat, decoration, length, Bool.not_false, Bool.true_and]
    by_cases here : last = i
    · rw [if_pos here, change_eq, here, beq_self_eq_true, if_pos rfl, List.filterMap_append,
        List.getLast?_append, List.flatMap_append, icon, classes]
      refine ⟨?_, ?_⟩
      · cases line.statement <;> rfl
      · rw [List.flatMap_singleton]
    · rw [if_neg here, if_neg (by simpa using here), List.append_nil]
      exact ⟨icon, classes⟩

/-- A line is added to a draft if, and only if, the lines up to it can be nested. -/
theorem apply (h : d.Follows ls) (line : Line) : Makes (ls ++ [line]) (d.apply line) := by
  obtain ⟨offset, indent, statement⟩ := line
  have decorated {change : Item → Item} {e : Fallacy}
      (decoration : Line.isNode ⟨offset, indent, statement⟩ = false)
      (change_eq : ∀ node, change node = { node with
        icon := statement.icon?.or node.icon, classes := node.classes ++ statement.classNames }) :
      Makes (ls ++ [⟨offset, indent, statement⟩]) (do
        let last ← orComplain d.last? offset e
        return { d with map := d.map.modify last change }) := by
    cases hlast : d.last? with
    | none =>
      intro nestable
      cases hlast ▸ (h.nestable_concat_decoration decoration).1 nestable
    | some last => exact h.decorate decoration hlast change_eq
  cases statement with
  | node id label shape =>
    have next := @nestable_concat _ _ ⟨offset, indent, .node id label shape⟩ h rfl
    simp only [Draft.apply]
    split
    · rename_i second
      rw [Bool.and_eq_true, Option.isNone_iff_eq_none, Bool.not_eq_true', List.isEmpty_eq_false_iff] at second
      exact fun nestable => second.2 (next.1 nestable second.1)
    · rename_i notSecond
      refine h.addNode rfl (next.2 fun none => ?_)
      simpa [none] using notSecond
  | icon name => exact decorated rfl fun node => by simp [Statement.icon?, Statement.classNames]
  | classes names => exact decorated rfl fun node => by simp [Statement.icon?, Statement.classNames]

/-- Lines make up a draft that follows them if, and only if, they can be nested. -/
theorem run (ls : List Line) : Makes ls (ls.foldlM Draft.apply {}) := by
  induction ls using List.reverseRecOn with
  | nil => exact .empty
  | append_singleton ls line ih =>
    have last : (ls ++ [line]).foldlM Draft.apply {} = ls.foldlM Draft.apply {} >>= (·.apply line) := by
      rw [List.foldlM_append]
      congr
      funext d
      rw [List.foldlM_cons]
      exact bind_pure _
    rw [last]
    cases hbefore : ls.foldlM Draft.apply {} with
    | error fault =>
      rw [hbefore] at ih
      exact fun nestable => ih nestable.of_append
    | ok d =>
      rw [hbefore] at ih
      exact apply ih line

end Draft.Follows

/-! ## Maps -/

theorem Draft.Follows.nested {ls : List Line} {d : Draft} (h : d.Follows ls) : Nested ls d.map := by
  have parentAt {i : Nat} {node : Item} (at' : d.map.node? i = some node) :
      d.map.parents[i]? = some node.parent := by
    rw [Map.parents_getElem?, at', Option.map_some]
  have earlier : d.map.ParentsEarlier := fun i p at' => (h.parent at').1.1
  exact {
    nodes := h.nodes
    parent := fun at' => h.parent (parentAt at')
    level_root := fun at' root => h.linked.level_of_root at' root
    level := fun at' parent above =>
      h.linked.level_of_parent at' parent (earlier _ _ (parent ▸ parentAt at')) above
    children := fun {i node} at' => by
      rw [h.linked.children at']
      refine List.filter_congr fun j _ => decide_eq_decide.2 (and_iff_right_iff_imp.2 (earlier j i))
    icon := fun at' => (h.decorated at').1
    classes := fun at' => (h.decorated at').2 }

/-- A document that the grammar accepts is read as a mind map if, and only if, its lines can be nested. Its
nodes are then nested as the lines are indented, and decorated by the lines behind them. -/
theorem nested_of_parse {depth : Nat} {input : String} {t : Tree} (accepted : grammar.parse depth input = .ok t) :
    ∃ ls, List.Forall₂ (Line.IsOf input) (t.list "lines") ls ∧ ls.Pairwise (·.offset < ·.offset) ∧
      ((∃ m, read t = .ok m) ↔ Nestable ls) ∧ ∀ m, read t = .ok m → Nested ls m := by
  obtain ⟨ls, hls, each, increasing⟩ := exists_lines accepted
  have made := Draft.Follows.run ls
  have reading : read t = do return (← ls.foldlM Draft.apply {}).map := by rw [read_eq, hls]; rfl
  refine ⟨ls, each, increasing, ?_⟩
  rw [reading]
  cases hd : ls.foldlM Draft.apply {} with
  | error fault =>
    rw [hd] at made
    exact ⟨⟨nofun, fun nestable => absurd nestable made⟩, nofun⟩
  | ok d =>
    rw [hd] at made
    have made : d.Follows ls := made
    refine ⟨⟨fun _ => made.nestable, fun _ => ⟨d.map, rfl⟩⟩, fun m hm => ?_⟩
    cases hm
    exact made.nested

/-- The fourth node is indented less than the third and less than the second, so it is below the first. -/
theorem nested_of_parse_dedent :
    ∃ t ls m, grammar.parse 20 "mindmap\nr\n   a\n     b\n  c\n     ::icon(i)" = .ok t ∧
      List.Forall₂ (Line.IsOf "mindmap\nr\n   a\n     b\n  c\n     ::icon(i)") (t.list "lines") ls ∧
      read t = .ok m ∧ Nested ls m ∧ m.parents = [none, some 0, some 1, some 0] := by
  have read : ((grammar.parse 20 "mindmap\nr\n   a\n     b\n  c\n     ::icon(i)").toOption.any fun t =>
      (read t).toOption.any fun m => m.parents == [none, some 0, some 1, some 0]) = true := by
    decide +kernel
  obtain ⟨t, accepted, parents⟩ := (Option.any_eq_true _ _).1 read
  obtain ⟨m, hm, parents⟩ := (Option.any_eq_true _ _).1 parents
  have accepted := toOption_eq_some.1 accepted
  obtain ⟨ls, each, -, -, nested⟩ := nested_of_parse accepted
  have hm := toOption_eq_some.1 hm
  exact ⟨t, ls, m, accepted, each, hm, nested m hm, eq_of_beq parents⟩

end DiagramText.Mindmap
