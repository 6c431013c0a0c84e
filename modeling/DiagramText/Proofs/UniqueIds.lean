import DiagramText.Proofs.Endpoints
import DiagramText.Proofs.Flowchart.Expansion
import DiagramText.Proofs.Git.History

/-!
# Unique ids

An id may mean only one entity among those that are looked up together, which `Kind.namespaces` lists for
each kind. There are three ways in which a model comes by this. Entities that may be given again are merged
with the one of their id (`Keyed.Keeps.add`), so that no statement makes an id occur twice. Entities
that must not be given again are refused, as the nodes of an architecture diagram and the commits of a
history are. Tasks of a plan are taken as they come, and repetitions are issues of the model.

Two lists of entities have none of these guards, subgraphs among themselves and the curves of a radar
chart (`Kind.unguarded`). So a model without issues has unique ids exactly when these lists have
(`nodup_namespaces_iff`), and they need not (`exists_repeated_curve`).
-/

namespace DiagramText

/-! ## Merging -/

namespace Keyed

variable {α : Type} [Keyed α] {items items' items'' : List α}

section

variable (distinct : (ids items).Nodup)
include distinct

theorem index?_of_getElem? {i : Nat} {item : α} (h : items[i]? = some item) :
    index? items (id item) = some i := by
  obtain ⟨inside, rfl⟩ := List.getElem?_eq_some_iff.1 h
  have apart := List.pairwise_iff_getElem.1 (List.pairwise_map.1 distinct)
  refine List.findIdx?_eq_some_iff_getElem.2 ⟨inside, beq_self_eq_true _, fun j before same => ?_⟩
  exact apart j i (by omega) inside before (eq_of_beq same)

/-- An entity is found by its id. -/
theorem find?_of_mem {item : α} (h : item ∈ items) : find? items (id item) = some item := by
  obtain ⟨i, hi⟩ := List.mem_iff_getElem?.1 h
  have found := index?_of_getElem? distinct hi
  rw [index?] at found
  rw [find?, List.find?_eq_bind_findIdx?_getElem?, found, Option.bind_some, hi]

end

/-- A step from one list of entities to another that makes no id occur twice. -/
def Keeps (items items' : List α) : Prop := (ids items).Nodup → (ids items').Nodup

theorem Keeps.refl (items : List α) : Keeps items items := fun distinct => distinct

theorem Keeps.trans (first : Keeps items items') (second : Keeps items' items'') :
    Keeps items items'' :=
  fun distinct => second (first distinct)

/-- An entity that is added is merged into the one that has its id. -/
theorem Keeps.add {join : α → α → α} {item : α} (h : ∀ a, id a = id item → id (join a item) = id item)
    (items : List α) : Keeps items (add join items item) := by
  intro distinct
  rw [ids_add h]
  exact Distinct.nodup_add distinct _

theorem Keeps.ensure (items : List α) (item : α) : Keeps items (ensure items item) :=
  .add (fun _ same => same) items

theorem Keeps.update {change : α → α} (h : ∀ a, id (change a) = id a) (items : List α) (key : String) :
    Keeps items (update items key change) := by
  intro distinct
  rwa [ids_update h]

/-- What each step of a loop keeps distinct, the loop does. -/
theorem Keeps.foldl {μ β : Type} {entities : μ → List α} {step : μ → β → μ}
    (h : ∀ m b, Keeps (entities m) (entities (step m b))) (steps : List β) (m : μ) :
    Keeps (entities m) (entities (steps.foldl step m)) := by
  induction steps generalizing m with
  | nil => exact .refl _
  | cons b steps ih => exact (h m b).trans (ih (step m b))

end Keyed

open Keyed (Keeps)

namespace Sequence

namespace Diagram

theorem addParticipant_keeps (d : Diagram) (p : Participant) :
    Keeps d.participants (d.addParticipant p).participants := by
  refine @Keeps.add _ _ (fun _ new => new) p ?_ d.participants
  exact fun _ _ => rfl

theorem addMessage_keeps (d : Diagram) (m : Message) :
    Keeps d.participants (d.addMessage m).participants := by
  have both := (Keeps.ensure d.participants { id := m.source, label := m.source }).trans
    (.ensure _ { id := m.target, label := m.target })
  simp only [addMessage]
  split <;> exact both

mutual

theorem apply_keeps (depth : Nat) (d : Diagram) : ∀ s : Statement,
    Keeps d.participants (d.apply depth s).participants
  | .participant p => addParticipant_keeps d p
  | .message m none => addMessage_keeps d { m with depth }
  | .message m (some .start) => addMessage_keeps d { m with depth }
  | .message m (some .stop) => addMessage_keeps d { m with depth }
  | .block kind label body branches =>
    (applyAll_keeps (depth + 1) (d.addEvent (.blockStart kind label depth)) body).trans
      (applyBranches_keeps depth _ branches)
  | .caption _ | .activate _ | .deactivate _ | .note _ | .numbering _ => .refl _

theorem applyAll_keeps (depth : Nat) (d : Diagram) : ∀ body : List Statement,
    Keeps d.participants (d.applyAll depth body).participants
  | [] => .refl _
  | s :: rest => (apply_keeps depth d s).trans (applyAll_keeps depth _ rest)

theorem applyBranches_keeps (depth : Nat) (d : Diagram) : ∀ branches : List Branch,
    Keeps d.participants (d.applyBranches depth branches).participants
  | [] => .refl _
  | .mk kind label body :: rest =>
    (applyAll_keeps (depth + 1) (d.addEvent (.blockBranch kind label depth)) body).trans
      (applyBranches_keeps depth _ rest)

end

end Diagram

theorem nodup_of_read {t : Tree} {d : Diagram} (e : read t = .ok d) :
    (d.participants.map Participant.id).Nodup := by
  simp only [read, Reading.bind_eq_ok, Reading.pure_eq_ok] at e
  obtain ⟨body, -, rfl⟩ := e
  exact Diagram.applyAll_keeps 0 {} body List.nodup_nil

end Sequence

namespace ClassDiagram

namespace Diagram

theorem addClass_keeps (d : Diagram) (c : Class) : Keeps d.classes (d.addClass c).classes := by
  rw [classes_addClass]
  exact .add (fun _ same => same) d.classes

theorem ensureClass_keeps (d : Diagram) (id : String) : Keeps d.classes (d.ensureClass id).classes := by
  rw [classes_ensureClass]
  exact .ensure d.classes _

theorem changeClass_keeps (d : Diagram) (target : String) {change : Class → Class} (keeps : Keyed.KeepsId change) :
    Keeps d.classes (d.changeClass target change keeps).classes := by
  refine (ensureClass_keeps d target).trans ?_
  rw [classes_changeClass]
  exact .update keeps.id_eq _ target

theorem addNamespace_keeps (d : Diagram) (name : String) (classes : List String) :
    Keeps d.classes (d.addNamespace name classes).classes :=
 Keeps.foldl (fun d id => changeClass_keeps d id (by exact ⟨fun _ => rfl⟩)) classes d

theorem assignStyleClass_keeps (d : Diagram) (target name : String) :
    Keeps d.classes (d.assignStyleClass target name).classes := by
  rw [classes_assignStyleClass]
  exact Keeps.update (by exact fun _ => rfl) d.classes target

mutual

theorem apply_keeps (d : Diagram) : ∀ s : Statement, Keeps d.classes (d.apply s).classes
  | .declare c => addClass_keeps d c
  | .annotate id _ => changeClass_keeps d id (by exact ⟨fun _ => rfl⟩)
  | .member id m => changeClass_keeps d id ⟨fun c => c.id_addMember m⟩
  | .relationship r => (ensureClass_keeps d r.source).trans (ensureClass_keeps _ r.target)
  | .namespace name body => (applyAll_keeps d body).trans (addNamespace_keeps _ name _)
  | .styleClass targets name => Keeps.foldl (fun d id => assignStyleClass_keeps d id name) targets d
  | .caption _ | .direction _ | .note _ | .click _ | .style _ _ => .refl _

theorem applyAll_keeps (d : Diagram) : ∀ body : List Statement,
    Keeps d.classes (d.applyAll body).classes
  | [] => .refl _
  | s :: rest => (apply_keeps d s).trans (applyAll_keeps _ rest)

end

end Diagram

theorem nodup_of_read {t : Tree} {d : Diagram} (e : read t = .ok d) : (d.classes.map Class.id).Nodup := by
  simp only [read, Reading.bind_eq_ok, Reading.pure_eq_ok] at e
  obtain ⟨body, -, rfl⟩ := e
  exact Diagram.applyAll_keeps {} body List.nodup_nil

end ClassDiagram

namespace StateDiagram

theorem Diagram.assignClass_keeps (d : Diagram) (target name : String) :
    Keeps d.states (d.assignClass target name).states := by
  rw [states_assignClass]
  exact Keeps.update (by exact fun _ => rfl) d.states target

namespace Scope

theorem declare_keeps (parent : Option String) (s : Scope) (state : State) :
    Keeps s.diagram.states (s.declare parent state).diagram.states := by
  rw [declare, onDiagram, Diagram.states_addState]
  exact .add (fun _ same => same) s.diagram.states

theorem resolve_keeps (parent : Option String) (s : Scope) (m : Mention) (source : Bool) :
    Keeps s.diagram.states (s.resolve parent m source).2.diagram.states := by
  cases m with
  | terminal => exact declare_keeps parent s _
  | named id class? =>
    cases class? with
    | none => exact declare_keeps parent s _
    | some name =>
      exact (declare_keeps parent s { id := id }).trans (Diagram.assignClass_keeps _ id name)

mutual

theorem apply_keeps (parent : Option String) (s : Scope) : ∀ statement : Statement,
    Keeps s.diagram.states (s.apply parent statement).diagram.states
  | .direction _ => by
    simp only [apply]
    split <;> exact .refl _
  | .composite id label body =>
    (declare_keeps parent s { id, kind := .composite (regions body), label }).trans
      (applyAll_keeps (some id) ⟨_, 0⟩ body)
  | .declare state => declare_keeps parent s state
  | .transition source target _ =>
    (resolve_keeps parent s source true).trans
      (resolve_keeps parent (s.resolve parent source true).2 target false)
  | .reference m => resolve_keeps parent s m true
  | .assignClass targets name =>
    Keeps.foldl (fun d id => Diagram.assignClass_keeps d id name) targets s.diagram
  | .accessible _ | .regionBreak | .note _ | .defineClass _ _ => .refl _

theorem applyAll_keeps (parent : Option String) (s : Scope) : ∀ body : List Statement,
    Keeps s.diagram.states (s.applyAll parent body).diagram.states
  | [] => .refl _
  | statement :: rest => (apply_keeps parent s statement).trans (applyAll_keeps parent _ rest)

end

end Scope

theorem nodup_of_read {t : Tree} {d : Diagram} (e : read t = .ok d) : (d.states.map State.id).Nodup := by
  simp only [read, Reading.bind_eq_ok, Reading.pure_eq_ok] at e
  obtain ⟨body, -, rfl⟩ := e
  exact Scope.applyAll_keeps none { diagram := {} } body List.nodup_nil

end StateDiagram

namespace Er

theorem Schema.addEntity_keeps (s : Schema) (e : Entity) : Keeps s.entities (s.addEntity e).entities := by
  rw [entities_addEntity]
  exact .add (fun _ same => same) s.entities

theorem Schema.ensureEntity_keeps (s : Schema) (id : String) : Keeps s.entities (s.ensureEntity id).entities := by
  rw [entities_ensureEntity]
  exact .ensure s.entities _

theorem Schema.apply_keeps (s : Schema) : ∀ statement : Statement,
    Keeps s.entities (s.apply statement).entities
  | .entity e => addEntity_keeps s e
  | .relationship r => (ensureEntity_keeps s r.source).trans (ensureEntity_keeps _ r.target)
  | .caption _ | .direction _ => .refl _

theorem nodup_of_read {t : Tree} {s : Schema} (e : read t = .ok s) : (s.entities.map Entity.id).Nodup := by
  simp only [read, Reading.bind_eq_ok, Reading.pure_eq_ok] at e
  obtain ⟨body, -, rfl⟩ := e
  exact Keeps.foldl Schema.apply_keeps body {} List.nodup_nil

end Er

namespace Flowchart

theorem nodup_ofStatements (direction : Direction) (body : List Statement) :
    ((Chart.ofStatements direction body).nodes.map Node.id).Nodup := by
  rw [Chart.ids_nodes_ofStatements]
  exact Distinct.nodup_eraseDups _

theorem nodup_nodes_of_read {t : Tree} {c : Chart} (e : read t = .ok c) : (c.nodes.map Node.id).Nodup := by
  obtain ⟨direction, body, rfl⟩ := exists_ofStatements e
  exact nodup_ofStatements direction body

/-- The ids of nodes are distinct and none of them is that of a subgraph, so that it is up to subgraphs
whether all ids are distinct. -/
theorem nodup_iff_of_read {t : Tree} {c : Chart} (e : read t = .ok c) :
    (c.nodes.map Node.id ++ c.subgraphs.map Subgraph.id).Nodup ↔ (c.subgraphs.map Subgraph.id).Nodup := by
  have distinct := nodup_nodes_of_read e
  obtain ⟨direction, body, rfl⟩ := exists_ofStatements e
  have apart : ∀ id ∈ (Chart.ofStatements direction body).nodes.map Node.id,
      ∀ other ∈ (Chart.ofStatements direction body).subgraphs.map Subgraph.id, id ≠ other := by
    rintro id node _ hs rfl
    obtain ⟨s, mem, rfl⟩ := List.mem_map.1 hs
    have free := Chart.subgraphs_apart direction body mem
    rw [Chart.hasNode_eq, Bool.eq_false_iff, Ne, Keyed.has_iff] at free
    exact free node
  rw [List.nodup_append]
  exact ⟨fun h => h.2.1, fun h => ⟨distinct, h, apart⟩⟩

end Flowchart

/-! ## Refusals -/

theorem nodup_concat_of_fresh {ids : List String} {id : String} (fresh : id ∉ ids) (distinct : ids.Nodup) :
    (ids ++ [id]).Nodup :=
  List.nodup_append_comm.1 (List.nodup_cons.2 ⟨fresh, distinct⟩)

namespace Requirement

namespace Diagram

/-- The names of requirements and of elements. -/
def names (d : Diagram) : List String := d.requirements.map Item.name ++ d.elements.map Element.name

theorem contains_iff {d : Diagram} {name : String} : d.contains name = true ↔ name ∈ d.names := by
  simp [contains, requirement?, element?, names]

theorem nodup_apply {d d' : Diagram} {placed : Nat × Statement} (distinct : d.names.Nodup)
    (e : d.apply placed = .ok d') : d'.names.Nodup := by
  obtain ⟨offset, statement⟩ := placed
  cases statement with
  | requirement item =>
    simp only [apply, Reading.orComplain_eq_ok, addRequirement?, contains_iff,
      Option.ite_none_left_eq_some, Option.some.injEq] at e
    obtain ⟨fresh, rfl⟩ := e
    have added := List.nodup_middle.2 (List.nodup_cons.2 ⟨fresh, distinct⟩)
    simpa [names] using added
  | element element =>
    simp only [apply, Reading.orComplain_eq_ok, addElement?, contains_iff,
      Option.ite_none_left_eq_some, Option.some.injEq] at e
    obtain ⟨fresh, rfl⟩ := e
    simpa [names] using nodup_concat_of_fresh fresh distinct
  | _ =>
    cases e
    exact distinct

theorem names_applyLink {d d' : Diagram} {placed : Nat × Statement} (e : d.applyLink placed = .ok d') :
    d'.names = d.names := by
  obtain ⟨offset, statement⟩ := placed
  cases statement with
  | link l =>
    simp only [applyLink] at e
    split at e <;> cases e
    rfl
  | _ =>
    cases e
    rfl

end Diagram

theorem nodup_of_read {t : Tree} {d : Diagram} (e : read t = .ok d) : d.names.Nodup := by
  simp only [read, Reading.bind_eq_ok] at e
  obtain ⟨placed, -, declared, hdeclared, e⟩ := e
  have distinct : declared.names.Nodup :=
    Reading.foldlM_invariant (P := fun d => d.names.Nodup) (fun _ _ _ => Diagram.nodup_apply)
      List.nodup_nil hdeclared
  exact Reading.foldlM_invariant (P := fun d => d.names.Nodup)
    (fun _ _ _ h e => Diagram.names_applyLink e ▸ h) distinct e

end Requirement

namespace Architecture

theorem Diagram.nodup_apply {d d' : Diagram} {placed : Nat × Statement}
    (distinct : (d.nodes.map Item.id).Nodup) (e : d.apply placed = .ok d') :
    (d'.nodes.map Item.id).Nodup := by
  obtain ⟨offset, statement⟩ := placed
  cases statement with
  | node node =>
    simp only [apply, Reading.orComplain_eq_ok, addNode?, Option.ite_none_left_eq_some,
      Option.some.injEq] at e
    obtain ⟨taken, rfl⟩ := e
    have fresh : node.id ∉ d.nodes.map Item.id := by simpa [node?] using taken
    simpa using nodup_concat_of_fresh fresh distinct
  | _ =>
    cases e
    exact distinct

theorem Diagram.nodes_applyEdge {d d' : Diagram} {placed : Nat × Statement}
    (e : d.applyEdge placed = .ok d') : d'.nodes = d.nodes := by
  obtain ⟨offset, statement⟩ := placed
  cases statement with
  | edge edge =>
    simp only [applyEdge] at e
    split at e <;> cases e
    rfl
  | _ =>
    cases e
    rfl

theorem nodup_of_read {t : Tree} {d : Diagram} (e : read t = .ok d) : (d.nodes.map Item.id).Nodup := by
  simp only [read, Reading.bind_eq_ok] at e
  obtain ⟨placed, -, declared, hdeclared, -, -, e⟩ := e
  have distinct : (declared.nodes.map Item.id).Nodup :=
    Reading.foldlM_invariant (P := fun d => (d.nodes.map Item.id).Nodup)
      (fun _ _ _ => Diagram.nodup_apply) List.nodup_nil hdeclared
  exact Reading.foldlM_invariant (P := fun d => (d.nodes.map Item.id).Nodup)
    (fun _ _ _ h e => Diagram.nodes_applyEdge e ▸ h) distinct e

end Architecture

namespace Radar

theorem Chart.nodup_addAxis {c c' : Chart} {axis : Axis} (distinct : (c.axes.map Axis.id).Nodup)
    (e : c.addAxis? axis = some c') : (c'.axes.map Axis.id).Nodup := by
  simp only [addAxis?, Option.ite_none_left_eq_some, Option.some.injEq] at e
  obtain ⟨taken, rfl⟩ := e
  have fresh : axis.id ∉ c.axes.map Axis.id := by simpa [axisIndex?] using taken
  simpa using nodup_concat_of_fresh fresh distinct

theorem Chart.nodup_apply {c c' : Chart} {placed : Nat × Statement}
    (distinct : (c.axes.map Axis.id).Nodup) (e : c.apply placed = .ok c') :
    (c'.axes.map Axis.id).Nodup := by
  obtain ⟨offset, statement⟩ := placed
  cases statement with
  | axes axes =>
    exact Reading.foldlM_invariant (P := fun c => (c.axes.map Axis.id).Nodup)
      (fun _ _ _ h e => nodup_addAxis h (Reading.orComplain_eq_ok.1 e)) distinct e
  | _ =>
    cases e
    exact distinct

theorem Chart.axes_applyCurves {c c' : Chart} {placed : Nat × Statement}
    (e : c.applyCurves placed = .ok c') : c'.axes = c.axes := by
  obtain ⟨offset, statement⟩ := placed
  cases statement with
  | curves curves =>
    refine Reading.foldlM_invariant (P := fun c' => c'.axes = c.axes) (fun b curve b' h e => ?_) rfl e
    split at e <;> cases e
    exact h
  | _ =>
    cases e
    rfl

theorem nodup_of_read {t : Tree} {c : Chart} (e : read t = .ok c) : (c.axes.map Axis.id).Nodup := by
  simp only [read, Reading.bind_eq_ok] at e
  obtain ⟨placed, -, declared, hdeclared, e⟩ := e
  have distinct : (declared.axes.map Axis.id).Nodup :=
    Reading.foldlM_invariant (P := fun c => (c.axes.map Axis.id).Nodup)
      (fun _ _ _ => Chart.nodup_apply) List.nodup_nil hdeclared
  exact Reading.foldlM_invariant (P := fun c => (c.axes.map Axis.id).Nodup)
    (fun _ _ _ h e => Chart.axes_applyCurves e ▸ h) distinct e

end Radar

/-! ## Issues -/

/-- Ids that come after others are new and distinct when the first of them is and the others, which come
after it as well, are. -/
theorem fresh_and_nodup_cons {seen ids : List String} {id : String} :
    ((∀ other ∈ id :: ids, other ∉ seen) ∧ (id :: ids).Nodup) ↔
      id ∉ seen ∧ (∀ other ∈ ids, other ∉ id :: seen) ∧ ids.Nodup := by
  rw [List.forall_mem_cons, List.nodup_cons]
  constructor
  · rintro ⟨⟨fresh, others⟩, apart, distinct⟩
    refine ⟨fresh, fun other h new => ?_, distinct⟩
    rcases List.mem_cons.1 new with rfl | old
    · exact apart h
    · exact others other h old
  · rintro ⟨fresh, others, distinct⟩
    exact ⟨⟨fresh, fun other h old => others other h (List.mem_cons_of_mem _ old)⟩,
      fun h => others id h List.mem_cons_self, distinct⟩

/-- No repetition is reported exactly when there is none. -/
theorem Issue.duplicate_not_mem_repeated {ids : List String} :
    (∀ id, .duplicateId id ∉ Issue.repeated ids) ↔ ids.Nodup := by
  have later (seen : List String) : (∀ id, .duplicateId id ∉ repeated.go seen ids) ↔
      (∀ id ∈ ids, id ∉ seen) ∧ ids.Nodup := by
    induction ids generalizing seen with
    | nil => simp [repeated.go]
    | cons first ids ih =>
      rw [fresh_and_nodup_cons, ← ih, repeated.go, List.contains_eq_mem]
      split
      · rename_i taken
        have taken : first ∈ seen := by simpa using taken
        exact ⟨fun none => absurd List.mem_cons_self (none first), fun h => absurd taken h.1⟩
      · rename_i fresh
        simpa using fun _ => fresh
  rw [Issue.repeated, later]
  simp

/-- No repetition among the tasks of a plan is reported exactly when there is none. -/
theorem Gantt.Plan.duplicate_not_mem_issues {p : Plan} :
    (∀ id, .duplicateId id ∉ p.issues) ↔ (p.tasks.map Task.id).Nodup := by
  have later (seen : List String) (tasks : List Task) :
      (∀ id, .duplicateId id ∉ p.taskIssues seen tasks) ↔
        (∀ id ∈ tasks.map Task.id, id ∉ seen) ∧ (tasks.map Task.id).Nodup := by
    induction tasks generalizing seen with
    | nil => simp [taskIssues]
    | cons first tasks ih =>
      rw [List.map_cons, fresh_and_nodup_cons, ← ih, taskIssues]
      by_cases taken : first.id ∈ seen <;> simp [taken, forall_and]
  have count : ∀ id, .duplicateId id ∉ Issue.ofCount p.tasks.length := by
    unfold Issue.ofCount
    split <;> simp
  have := later [] p.tasks
  simpa [issues, count] using this

/-- No repetition on a board is reported exactly when there is none. -/
theorem Kanban.Board.duplicate_not_mem_issues {b : Board} :
    (∀ id, .duplicateId id ∉ b.issues) ↔ b.ids.Nodup := by
  have count : ∀ id, .duplicateId id ∉ Issue.ofCount b.columns.length := by
    unfold Issue.ofCount
    split <;> simp
  rw [← Issue.duplicate_not_mem_repeated]
  simp [issues, count]

/-! ## Models -/

namespace Kind

/-- The ids that are looked up together, for each of the lists of entities of a model that have ids. -/
def namespaces : (kind : Kind) → kind.dialect.Content → List (List String)
  | flowchart, (c : Flowchart.Chart) => [c.nodes.map (·.id) ++ c.subgraphs.map (·.id)]
  | sequence, (d : Sequence.Diagram) => [d.participants.map (·.id)]
  | classDiagram, (d : ClassDiagram.Diagram) => [d.classes.map (·.id)]
  | state, (d : StateDiagram.Diagram) => [d.states.map (·.id)]
  | er, (s : Er.Schema) => [s.entities.map (·.id)]
  | gitGraph, (h : Git.History) => [h.commits.map (·.id), h.branches.map (·.name)]
  | gantt, (p : Gantt.Plan) => [p.tasks.map (·.id)]
  | requirement, (d : Requirement.Diagram) => [d.requirements.map (·.name) ++ d.elements.map (·.name)]
  | kanban, (b : Kanban.Board) => [b.columns.map (·.id) ++ b.cards.map (·.id)]
  | architecture, (d : Architecture.Diagram) => [d.nodes.map (·.id)]
  | radar, (c : Radar.Chart) => [c.axes.map (·.id), c.curves.map (·.id)]
  | journey, _ | sankey, _ | pie, _ | timeline, _ | mindmap, _ | quadrantChart, _ | packet, _
  | xyChart, _ | info, _ => []

/-- The ids of entities of a model that nothing keeps apart from each other. -/
def unguarded : (kind : Kind) → kind.dialect.Content → List String
  | flowchart, (c : Flowchart.Chart) => c.subgraphs.map (·.id)
  | radar, (c : Radar.Chart) => c.curves.map (·.id)
  | _, _ => []

end Kind

/-- A model of a document that has no issues has unique ids if the ids that nothing keeps apart are
unique, and only then. -/
theorem nodup_namespaces_iff {options : ParseOptions} {kind : Kind} {input : String} {m : Model}
    (h : parseAs .all options kind input = .ok m) (valid : m.issues = []) :
    (∀ ids ∈ m.kind.namespaces m.content, ids.Nodup) ↔ (m.kind.unguarded m.content).Nodup := by
  obtain ⟨tree, content, -, hread, hchecked⟩ := parseAs_eq_ok.1 h
  obtain rfl := eq_of_checkedModel hchecked
  cases kind with
  | flowchart => simpa [Kind.namespaces, Kind.unguarded] using Flowchart.nodup_iff_of_read hread
  | sequence => simpa [Kind.namespaces, Kind.unguarded] using Sequence.nodup_of_read hread
  | classDiagram => simpa [Kind.namespaces, Kind.unguarded] using ClassDiagram.nodup_of_read hread
  | state => simpa [Kind.namespaces, Kind.unguarded] using StateDiagram.nodup_of_read hread
  | er => simpa [Kind.namespaces, Kind.unguarded] using Er.nodup_of_read hread
  | gitGraph =>
    have sound := Git.sound_of_read hread
    simpa [Kind.namespaces, Kind.unguarded] using And.intro sound.ids_nodup sound.names_nodup
  | gantt =>
    have none : ∀ id, .duplicateId id ∉ Gantt.Plan.issues content := by
      intro id
      rw [show Gantt.Plan.issues content = [] from valid]
      exact List.not_mem_nil
    simpa [Kind.namespaces, Kind.unguarded] using Gantt.Plan.duplicate_not_mem_issues.1 none
  | requirement =>
    simpa [Kind.namespaces, Kind.unguarded, Requirement.Diagram.names] using Requirement.nodup_of_read hread
  | kanban =>
    have none : ∀ id, .duplicateId id ∉ Kanban.Board.issues content := by
      intro id
      rw [show Kanban.Board.issues content = [] from valid]
      exact List.not_mem_nil
    simpa [Kind.namespaces, Kind.unguarded, Kanban.Board.ids] using
      Kanban.Board.duplicate_not_mem_issues.1 none
  | architecture => simpa [Kind.namespaces, Kind.unguarded] using Architecture.nodup_of_read hread
  | radar =>
    have axes := Radar.nodup_of_read hread
    simpa [Kind.namespaces, Kind.unguarded] using fun _ => axes
  | _ => simp [Kind.namespaces, Kind.unguarded]

/-- A flowchart with two subgraphs, which have ids of their own. -/
theorem nodup_namespaces_flowchart :
    ∃ m,
      parseAs .all { nesting := 20 } .flowchart "graph TD\nsubgraph a\nx --> b\nend\nsubgraph b\ny\nend\n" = .ok m ∧
      m.issues = [] ∧ ∀ ids ∈ m.kind.namespaces m.content, ids.Nodup := by
  obtain ⟨m, hm, htest⟩ := @exists_parseAs .all { nesting := 20 } .flowchart
    "graph TD\nsubgraph a\nx --> b\nend\nsubgraph b\ny\nend\n"
    (fun m => decide (m.issues = [] ∧ (m.kind.unguarded m.content).Nodup)) (by decide +kernel)
  obtain ⟨valid, distinct⟩ := of_decide_eq_true htest
  exact ⟨m, hm, valid, (nodup_namespaces_iff hm valid).2 distinct⟩

/-- Two curves of a radar chart may have the same id without an issue. -/
theorem exists_repeated_curve :
    ∃ m, parseAs .all { nesting := 20 } .radar
        "radar-beta\naxis x, y\ncurve a\x7b1, 2\x7d\ncurve a\x7b3, 4\x7d\n" = .ok m ∧
      m.issues = [] ∧ ¬ ∀ ids ∈ m.kind.namespaces m.content, ids.Nodup := by
  obtain ⟨m, hm, htest⟩ := @exists_parseAs .all { nesting := 20 } .radar
    "radar-beta\naxis x, y\ncurve a\x7b1, 2\x7d\ncurve a\x7b3, 4\x7d\n"
    (fun m => decide (m.issues = [] ∧ ¬ ∀ ids ∈ m.kind.namespaces m.content, ids.Nodup)) (by decide +kernel)
  exact ⟨m, hm, of_decide_eq_true htest⟩

end DiagramText
