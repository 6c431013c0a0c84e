import DiagramText.Proofs.Naming
import DiagramText.Proofs.UniqueIds

/-!
# Ids of nodes and subgraphs

A subgraph without an id is named by the number of those that were named before it, so such subgraphs do
not share an id (`nodup_generated_slots`). A group of nodes that mentions the id of a subgraph means the
subgraph and makes no node. So a node is lost when a subgraph happens to get its id, and only then do nodes
and subgraphs differ from what the document names (`perm_ids`).
-/

namespace DiagramText.Flowchart

open Naming

/-- The id that a subgraph gives: its own, or else a title of one word. -/
def givenId? (id : Option String) (title : String) : Option String :=
  id.or (if title != "" && !title.toList.any isBlank then some title else none)

theorem subgraphId_eq (count : Nat) (id : Option String) (title : String) :
    subgraphId count id title =
      (givenId? id title).elim ("subGraph" ++ toString count, count + 1) fun id => (id, count) := by
  cases id with
  | some id => rfl
  | none =>
    simp only [subgraphId, givenId?, Option.none_or]
    split <;> rfl

/-- The place for the id of a subgraph; one without an id is named by the number of those named before. -/
def subgraphSlot (id : Option String) (title : String) : Slot :=
  .of (givenId? id title) fun before => "subGraph" ++ toString (generated before).length

mutual

/-- The subgraphs of a statement, outer ones first. -/
def subgraphSlots : Statement → List Slot
  | .subgraph id title body => subgraphSlot id title :: allSubgraphSlots body
  | _ => []

/-- The subgraphs of statements, outer ones first. -/
def allSubgraphSlots : List Statement → List Slot
  | [] => []
  | statement :: rest => subgraphSlots statement ++ allSubgraphSlots rest

end

/-- The ids of nodes: those in groups of nodes that are not given to a subgraph. -/
def nodeIds (body : List Statement) : List String :=
  ((allMentions body).filter (· ∉ (allSubgraphSlots body).filterMap Slot.given?)).dedup

/-- The nodes and the subgraphs of a document. -/
def slots (body : List Statement) : List Slot :=
  (nodeIds body).map Slot.given ++ allSubgraphSlots body

mutual

theorem exists_subgraphSlot {slot : Slot} : ∀ statement : Statement, slot ∈ subgraphSlots statement →
    ∃ id title, slot = subgraphSlot id title
  | .subgraph id title body => by
    rw [subgraphSlots, List.mem_cons]
    rintro (rfl | inner)
    · exact ⟨id, title, rfl⟩
    · exact exists_subgraphSlot_of_all body inner
  | .caption _ | .direction _ | .nodes _ | .chain _ _ | .defineClass _ _ | .assignClass _ _ | .style _ _
  | .edgeStyle _ _ | .click _ => nofun

theorem exists_subgraphSlot_of_all {slot : Slot} : ∀ body : List Statement,
    slot ∈ allSubgraphSlots body → ∃ id title, slot = subgraphSlot id title
  | [] => nofun
  | statement :: rest => by
    rw [allSubgraphSlots, List.mem_append]
    rintro (first | later)
    · exact exists_subgraphSlot statement first
    · exact exists_subgraphSlot_of_all rest later

end

theorem nodup_generated_slots (body : List Statement) : (generated (nameAll (slots body))).Nodup := by
  refine @nodup_generated_of_counts _ ["subGraph"] (fun before => (generated before).length) ?_ ?_ ?_ ?_
  · simp only [List.mem_singleton]
    rintro _ rfl _ rfl m n same
    exact number_eq_of_label "subGraph" same
  · intro before slot
    cases slot with
    | given id => rw [generated_given]
    | made make => simp [generated_made]
  · intro before make
    simp [generated_made]
  · intro make hmake before
    obtain node | subgraph := List.mem_append.1 hmake
    · obtain ⟨_, _, e⟩ := List.mem_map.1 node
      cases e
    · obtain ⟨id, title, e⟩ := exists_subgraphSlot_of_all body subgraph
      obtain ⟨-, rfl⟩ := Slot.of_eq_made e.symm
      exact ⟨"subGraph", List.mem_singleton_self _, rfl⟩

/-! ## Subgraphs -/

/-- Names with those that subgraphs got in one go, the count of names made then being `count`. -/
def Gets (before after : List Name) (found : List String × Nat) : Prop :=
  ids after = ids before ++ found.1 ∧ (generated after).length = found.2

theorem gets_subgraphSlot (before : List Name) (id : Option String) (title : String) :
    Gets before (extend before (subgraphSlot id title))
      ([(subgraphId (generated before).length id title).1],
        (subgraphId (generated before).length id title).2) := by
  rw [subgraphId_eq, subgraphSlot, Gets, extend, ids_append]
  cases givenId? id title with
  | none => exact ⟨rfl, by simp [Slot.of, nameIn, generated, ids]⟩
  | some id => exact ⟨rfl, by simp [Slot.of, nameIn, generated, ids]⟩

mutual

/-- The names of subgraphs are the ids of the first pass. -/
theorem gets_subgraphSlots (before : List Name) : ∀ statement : Statement,
    Gets before ((subgraphSlots statement).foldl extend before)
      (subgraphIds (generated before).length statement)
  | .subgraph id title body => by
    obtain ⟨own, count⟩ := gets_subgraphSlot before id title
    obtain ⟨inner, total⟩ := gets_allSubgraphSlots (extend before (subgraphSlot id title)) body
    rw [count] at inner total
    rw [own, List.append_assoc] at inner
    exact ⟨inner, total⟩
  | .caption _ | .direction _ | .nodes _ | .chain _ _ | .defineClass _ _ | .assignClass _ _ | .style _ _
  | .edgeStyle _ _ | .click _ => ⟨(List.append_nil _).symm, rfl⟩

theorem gets_allSubgraphSlots (before : List Name) : ∀ body : List Statement,
    Gets before ((allSubgraphSlots body).foldl extend before)
      (allSubgraphIds (generated before).length body)
  | [] => ⟨(List.append_nil _).symm, rfl⟩
  | statement :: rest => by
    obtain ⟨own, count⟩ := gets_subgraphSlots before statement
    obtain ⟨more, total⟩ :=
      gets_allSubgraphSlots ((subgraphSlots statement).foldl extend before) rest
    rw [count] at more total
    rw [own, List.append_assoc] at more
    rw [allSubgraphSlots, List.foldl_append]
    exact ⟨more, total⟩

end

/-! ## Documents -/

namespace Chart

/-- The ids of nodes and subgraphs. -/
def ids (c : Chart) : List String := c.nodes.map Node.id ++ c.subgraphs.map Subgraph.id

variable (direction : Direction) (body : List Statement)

theorem mem_ids_nodes_iff (id : String) :
    id ∈ (ofStatements direction body).nodes.map Node.id ↔
      id ∈ allMentions body ∧ id ∉ (allSubgraphIds 0 body).1 := by
  rw [ids_nodes_ofStatements, List.mem_eraseDups, List.mem_filter, decide_eq_true_eq]

theorem ids_slots : Naming.ids (nameAll (slots body)) = nodeIds body ++ (allSubgraphIds 0 body).1 := by
  have subgraphs := (gets_allSubgraphSlots (((nodeIds body).map Slot.given).foldl extend []) body).1
  rw [ids_foldl_given, generated_foldl_given] at subgraphs
  rw [nameAll, slots, List.foldl_append, subgraphs]
  rfl

theorem written_slots : written (nameAll (slots body)) =
    nodeIds body ++ (allSubgraphSlots body).filterMap Slot.given? := by
  have nodes : ((nodeIds body).map Slot.given).filterMap Slot.given? = nodeIds body := by
    rw [List.filterMap_map]
    exact List.filterMap_some
  rw [nameAll, written_foldl, slots, List.filterMap_append, nodes]
  rfl

/-- The ids of subgraphs are those that subgraphs give and those that are made. -/
theorem perm_allSubgraphIds : ((allSubgraphSlots body).filterMap Slot.given? ++
    generated (nameAll (slots body))).Perm (allSubgraphIds 0 body).1 := by
  have all := Naming.perm_ids (nameAll (slots body))
  rw [ids_slots, written_slots, List.append_assoc] at all
  exact (List.perm_append_left_iff _).1 all

/-- Where no id that is made is also given, the chart has all entities under their ids. -/
theorem perm_ids (apart : Apart (nameAll (slots body))) :
    (ofStatements direction body).ids.Perm (Naming.ids (nameAll (slots body))) := by
  rw [ids_slots]
  refine .append ((List.perm_ext_iff_of_nodup (nodup_ofStatements direction body)
    (List.nodup_dedup _)).2 fun id => ?_)
    (ids_ofStatements direction body)
  have given : id ∈ nodeIds body ↔ _ := List.mem_dedup.trans List.mem_filter
  refine ((mem_ids_nodes_iff direction body id).trans ?_).trans given.symm
  rw [decide_eq_true_eq, ← (perm_allSubgraphIds body).mem_iff, List.mem_append, not_or]
  refine and_congr_right fun mentioned => and_iff_left_of_imp fun free made => apart id made ?_
  rw [written_slots]
  exact List.mem_append_left _ (given.2 ⟨mentioned, decide_eq_true free⟩)

end Chart

/-- A flowchart that is read is made of the statements of its document. -/
theorem exists_statements_of_read {t : Tree} {c : Chart} (h : read t = .ok c) :
    ∃ direction body, readBody t.height (t.list "statements") = .ok body ∧ c = .ofStatements direction body := by
  unfold read at h
  split at h
  all_goals
    simp only [Reading.bind_eq_ok, Reading.pure_eq_ok] at h
    obtain ⟨direction, -, body, hbody, rfl⟩ := h
    exact ⟨direction, body, hbody, rfl⟩

theorem eq_ofStatements {t : Tree} {body : List Statement} {c : Chart}
    (hbody : readBody t.height (t.list "statements") = .ok body) (h : read t = .ok c) :
    ∃ direction, c = .ofStatements direction body := by
  obtain ⟨direction, body', hbody', rfl⟩ := exists_statements_of_read h
  obtain rfl := Except.ok.inj (hbody.symm.trans hbody')
  exact ⟨direction, rfl⟩

end DiagramText.Flowchart
