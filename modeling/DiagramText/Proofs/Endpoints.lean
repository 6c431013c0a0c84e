import DiagramText.Proofs.Flowchart.Subgraphs
import DiagramText.Proofs.Parse

/-!
# Ends of links

A document need not declare what its links lead to: a message makes its participants, a relationship
its classes or entities, a transition its states, and so on. So no model that is read from a document
has an issue about the end of a link (`links_closed`), although issues of this kind exist for models
that are put together in other ways.

For each kind of model, what one statement does is a growth of it (`Grows`), and so is what a whole
document does.
-/

namespace DiagramText

/-- The issues about references to what is not there, of those that `ids` lists. -/
theorem Issue.mem_dangling {has : String → Bool} {ids : List String} {context within id : String} :
    .danglingReference context id ∈ (ids.filter (!has ·)).map (Issue.danglingReference within) ↔
      within = context ∧ id ∈ ids ∧ has id = false := by
  simp only [List.mem_map, List.mem_filter, Bool.not_eq_true', Issue.danglingReference.injEq]
  grind

theorem Issue.dangling_not_mem_ofCount (context id : String) (count : Nat) :
    .danglingReference context id ∉ Issue.ofCount count := by
  unfold Issue.ofCount
  split <;> simp

/-! ## Sequence diagrams -/

namespace Sequence.Diagram

/-- The ids at which messages end. -/
def ends (d : Diagram) : List String := d.messages.flatMap fun m => [m.source, m.target]

theorem hasParticipant_addParticipant (d : Diagram) (p : Participant) (id : String) :
    (d.addParticipant p).hasParticipant id = (d.hasParticipant id || p.id == id) :=
  @Keyed.has_add _ _ (fun _ new => new) p (fun _ _ => rfl) d.participants id

theorem hasParticipant_ensureParticipant (d : Diagram) (new id : String) :
    (d.ensureParticipant new).hasParticipant id = (d.hasParticipant id || new == id) :=
  Keyed.has_ensure d.participants _ id

theorem addParticipant_grows (d : Diagram) (p : Participant) :
    Grows hasParticipant ends d (d.addParticipant p) :=
  .of_ends_eq (fun id known => by simp [hasParticipant_addParticipant, known]) rfl

theorem addEvent_grows (d : Diagram) {e : Event} (noMessage : ∀ m, e ≠ .message m) :
    Grows hasParticipant ends d (d.addEvent e) := by
  refine .of_ends_eq (fun _ known => known) ?_
  cases e with
  | message m => exact absurd rfl (noMessage m)
  | _ => simp [ends, messages, addEvent]

/-- A message declares its ends. -/
theorem addMessage_grows (d : Diagram) (m : Message) :
    Grows hasParticipant ends d (d.addMessage m) := by
  have participants (id : String) : (d.addMessage m).hasParticipant id =
      (d.hasParticipant id || m.source == id || m.target == id) := by
    rw [← hasParticipant_ensureParticipant, ← hasParticipant_ensureParticipant]
    simp only [addMessage]
    split <;> rfl
  have newEnds : (d.addMessage m).ends = d.ends ++ [m.source, m.target] := by
    simp only [addMessage, ends, messages]
    split <;> simp [addEvent, ensureParticipant]
  exact .of_declared_link m.source m.target participants newEnds

mutual

theorem apply_grows (depth : Nat) (d : Diagram) : ∀ s : Statement,
    Grows hasParticipant ends d (d.apply depth s)
  | .caption _ => .of_ends_eq (fun _ known => known) rfl
  | .participant p => addParticipant_grows d p
  | .message m none => addMessage_grows d { m with depth }
  | .message m (some .start) =>
    (addMessage_grows d { m with depth }).trans (addEvent_grows _ (by simp))
  | .message m (some .stop) =>
    (addMessage_grows d { m with depth }).trans (addEvent_grows _ (by simp))
  | .activate _ => addEvent_grows d (by simp)
  | .deactivate _ => addEvent_grows d (by simp)
  | .note _ => addEvent_grows d (by simp)
  | .block kind label body branches =>
    have opened := addEvent_grows d (e := .blockStart kind label depth) (by simp)
    have first := applyAll_grows (depth + 1) _ body
    have others := applyBranches_grows depth _ branches
    ((opened.trans first).trans others).trans (addEvent_grows _ (by simp))
  | .numbering _ => .of_ends_eq (fun _ known => known) rfl

theorem applyAll_grows (depth : Nat) (d : Diagram) : ∀ body : List Statement,
    Grows hasParticipant ends d (d.applyAll depth body)
  | [] => .refl d
  | s :: rest => (apply_grows depth d s).trans (applyAll_grows depth _ rest)

theorem applyBranches_grows (depth : Nat) (d : Diagram) : ∀ branches : List Branch,
    Grows hasParticipant ends d (d.applyBranches depth branches)
  | [] => .refl d
  | .mk kind label body :: rest =>
    have opened := addEvent_grows d (e := .blockBranch kind label depth) (by simp)
    have own := applyAll_grows (depth + 1) _ body
    (opened.trans own).trans (applyBranches_grows depth _ rest)

end

/-- An end of a message that is an issue is the end of one of the events, and no participant. -/
theorem mem_eventIssues {d : Diagram} {active : List String} {events : List Event} {id : String}
    (h : .danglingReference "message" id ∈ (d.eventIssues active events).1) :
    (∃ m, .message m ∈ events ∧ id ∈ [m.source, m.target]) ∧ d.hasParticipant id = false := by
  induction events generalizing active with
  | nil => simp [eventIssues] at h
  | cons event events ih =>
    have rest {active : List String}
        (h : .danglingReference "message" id ∈ (d.eventIssues active events).1) :
        (∃ m, .message m ∈ event :: events ∧ id ∈ [m.source, m.target]) ∧
          d.hasParticipant id = false := by
      obtain ⟨⟨m, hm, hid⟩, unknown⟩ := ih h
      exact ⟨⟨m, List.mem_cons_of_mem _ hm, hid⟩, unknown⟩
    cases event with
    | message m =>
      rw [eventIssues] at h
      obtain own | later := List.mem_append.1 h
      · obtain ⟨-, hid, unknown⟩ := Issue.mem_dangling.1 own
        exact ⟨⟨m, List.mem_cons_self, hid⟩, unknown⟩
      · exact rest later
    | deactivate other =>
      rw [eventIssues] at h
      dsimp only at h
      split at h
      all_goals
        refine rest ((List.mem_append.1 h).resolve_left ?_)
        simp [unknown, Issue.mem_dangling]
    | _ =>
      rw [eventIssues] at h
      refine rest ((List.mem_append.1 h).resolve_left ?_)
      simp [unknown, Issue.mem_dangling]

theorem message_mem_issues {d : Diagram} {id : String}
    (h : .danglingReference "message" id ∈ d.issues) :
    id ∈ d.ends ∧ d.hasParticipant id = false := by
  simp only [issues, List.mem_append, Issue.dangling_not_mem_ofCount, false_or] at h
  obtain found | unclosed := h
  · obtain ⟨⟨m, hm, hid⟩, unknown⟩ := mem_eventIssues found
    exact ⟨List.mem_flatMap.2 ⟨m, List.mem_filterMap.2 ⟨_, hm, rfl⟩, hid⟩, unknown⟩
  · simp at unclosed

/-- Every message of a document runs between participants. -/
theorem message_not_mem_issues {t : Tree} {d : Diagram} (e : read t = .ok d) (id : String) :
    .danglingReference "message" id ∉ d.issues := by
  simp only [read, Reading.bind_eq_ok, Reading.pure_eq_ok] at e
  obtain ⟨body, -, rfl⟩ := e
  intro h
  exact (applyAll_grows 0 {} body).no_unknown_end rfl (message_mem_issues h)

end Sequence.Diagram

/-! ## Class diagrams -/

namespace ClassDiagram.Diagram

/-- The ids at which relationships end. -/
def ends (d : Diagram) : List String := d.relationships.flatMap fun r => [r.source, r.target]

theorem addClass_grows (d : Diagram) (c : Class) : Grows hasClass ends d (d.addClass c) := by
  refine .of_ends_eq (fun id known => (d.roster.has_add id (by exact ⟨fun _ => rfl⟩)).trans ?_) rfl
  rw [show d.roster.has id = true from known, Bool.true_or]

theorem hasClass_ensureClass (d : Diagram) (new id : String) :
    (d.ensureClass new).hasClass id = (d.hasClass id || new == id) :=
  d.roster.has_ensure id _

/-- A class is changed without getting another id. -/
theorem changeClass_grows (d : Diagram) (target : String) {change : Class → Class} (keeps : Keyed.KeepsId change) :
    Grows hasClass ends d (d.changeClass target change keeps) := by
  refine .of_ends_eq (fun id known => ?_) rfl
  refine ((d.ensureClass target).roster.has_change id keeps).trans ?_
  exact (hasClass_ensureClass d target id).trans (by simp [known])

theorem addNamespace_grows (d : Diagram) (name : String) (classes : List String) :
    Grows hasClass ends d (d.addNamespace name classes) := by
  have put : Grows hasClass ends d (classes.foldl
      (fun d id => d.changeClass id ({ · with inNamespace := some name }) ⟨fun _ => rfl⟩) d) :=
    .foldl (fun d id => changeClass_grows d id (by exact ⟨fun _ => rfl⟩)) classes d
  exact put.trans (.of_ends_eq (fun _ known => known) rfl)

theorem assignStyleClass_grows (d : Diagram) (target name : String) :
    Grows hasClass ends d (d.assignStyleClass target name) :=
  .of_ends_eq (fun id known => (d.roster.has_change id (by exact ⟨fun _ => rfl⟩)).trans known) rfl

/-- A relationship declares its ends. -/
theorem relate_grows (d : Diagram) (r : Relationship) :
    Grows hasClass ends d
      (((d.ensureClass r.source).ensureClass r.target).addRelationship r) := by
  refine .of_declared_link r.source r.target (fun id => ?_) (by simp [ends, addRelationship, ensureClass])
  rw [← hasClass_ensureClass, ← hasClass_ensureClass]
  rfl

mutual

theorem apply_grows (d : Diagram) : ∀ s : Statement, Grows hasClass ends d (d.apply s)
  | .caption _ => .of_ends_eq (fun _ known => known) rfl
  | .direction _ => .of_ends_eq (fun _ known => known) rfl
  | .declare c => addClass_grows d c
  | .annotate id _ => changeClass_grows d id (by exact ⟨fun _ => rfl⟩)
  | .member id m => changeClass_grows d id ⟨fun c => c.id_addMember m⟩
  | .relationship r => relate_grows d r
  | .namespace name body => (applyAll_grows d body).trans (addNamespace_grows _ name _)
  | .note _ => .of_ends_eq (fun _ known => known) rfl
  | .click _ => .of_ends_eq (fun _ known => known) rfl
  | .styleClass targets name => .foldl (fun d id => assignStyleClass_grows d id name) targets d
  | .style _ _ => .of_ends_eq (fun _ known => known) rfl

theorem applyAll_grows (d : Diagram) : ∀ body : List Statement,
    Grows hasClass ends d (d.applyAll body)
  | [] => .refl d
  | s :: rest => (apply_grows d s).trans (applyAll_grows _ rest)

end

theorem relationship_mem_issues {d : Diagram} {id : String} :
    .danglingReference "relationship" id ∈ d.issues ↔ id ∈ d.ends ∧ d.hasClass id = false := by
  simp [issues, unknown, ends, Issue.mem_dangling, Issue.dangling_not_mem_ofCount]

/-- Every relationship of a document is one of classes. -/
theorem relationship_not_mem_issues {t : Tree} {d : Diagram} (e : read t = .ok d) (id : String) :
    .danglingReference "relationship" id ∉ d.issues := by
  simp only [read, Reading.bind_eq_ok, Reading.pure_eq_ok] at e
  obtain ⟨body, -, rfl⟩ := e
  rw [relationship_mem_issues]
  exact (applyAll_grows {} body).no_unknown_end rfl

end ClassDiagram.Diagram

/-! ## State diagrams -/

namespace StateDiagram

namespace Diagram

/-- The ids at which transitions end. -/
def ends (d : Diagram) : List String := d.transitions.flatMap fun t => [t.source, t.target]

theorem hasState_addState (d : Diagram) (s : State) (id : String) :
    (d.addState s).hasState id = (d.hasState id || s.id == id) :=
  d.roster.has_add id (by exact ⟨fun _ => rfl⟩)

theorem addState_grows (d : Diagram) (s : State) : Grows hasState ends d (d.addState s) :=
  .of_ends_eq (fun id known => by simp [hasState_addState, known]) rfl

theorem assignClass_grows (d : Diagram) (target name : String) :
    Grows hasState ends d (d.assignClass target name) :=
  .of_ends_eq (fun id known => (d.roster.has_change id (by exact ⟨fun _ => rfl⟩)).trans known) rfl

/-- A transition may be added between states that are there. -/
theorem addTransition_grows {d : Diagram} {t : Transition} (source : d.hasState t.source = true)
    (target : d.hasState t.target = true) : Grows hasState ends d (d.addTransition t) :=
  .of_link (fun _ known => known) (by simp [ends, addTransition]) source target

end Diagram

open Diagram

namespace Scope

/-- The declaration of a state makes it, whether or not it gets a place. -/
theorem declare_grows (parent : Option String) (s : Scope) (state : State) :
    Grows hasState ends s.diagram (s.declare parent state).diagram ∧
      (s.declare parent state).diagram.hasState state.id = true := by
  simp only [declare, onDiagram]
  split
  · exact ⟨addState_grows _ _, by simp [hasState_addState]⟩
  · exact ⟨addState_grows _ _, by simp [hasState_addState]⟩

/-- What a mention stands for is a state after it. -/
theorem resolve_grows (parent : Option String) (s : Scope) (m : Mention) (source : Bool) :
    Grows hasState ends s.diagram (s.resolve parent m source).2.diagram ∧
      (s.resolve parent m source).2.diagram.hasState (s.resolve parent m source).1 = true := by
  cases m with
  | terminal => exact declare_grows parent s _
  | named id class? =>
    obtain ⟨declared, known⟩ := declare_grows parent s { id := id }
    cases class? with
    | none => exact ⟨declared, known⟩
    | some name =>
      have assigned := assignClass_grows (s.declare parent { id := id }).diagram id name
      exact ⟨declared.trans assigned, assigned.keeps id known⟩

mutual

theorem apply_grows (parent : Option String) (s : Scope) : ∀ statement : Statement,
    Grows hasState ends s.diagram (s.apply parent statement).diagram
  | .accessible _ => .of_ends_eq (fun _ known => known) rfl
  | .direction _ => by
    simp only [apply]
    split
    · exact .of_ends_eq (fun _ known => known) rfl
    · exact .refl _
  | .composite id label body => by
    obtain ⟨declared, -⟩ := declare_grows parent s { id, kind := .composite (regions body), label }
    exact declared.trans (applyAll_grows (some id) ⟨_, 0⟩ body)
  | .regionBreak => .refl _
  | .declare state => (declare_grows parent s state).1
  | .transition source target label => by
    obtain ⟨first, hsource⟩ := resolve_grows parent s source true
    obtain ⟨second, htarget⟩ := resolve_grows parent (s.resolve parent source true).2 target false
    exact (first.trans second).trans (addTransition_grows (second.keeps _ hsource) htarget)
  | .reference m => (resolve_grows parent s m true).1
  | .note _ => .of_ends_eq (fun _ known => known) rfl
  | .defineClass _ _ => .of_ends_eq (fun _ known => known) rfl
  | .assignClass targets name =>
    .foldl (fun d id => assignClass_grows d id name) targets s.diagram

theorem applyAll_grows (parent : Option String) (s : Scope) : ∀ body : List Statement,
    Grows hasState ends s.diagram (s.applyAll parent body).diagram
  | [] => .refl _
  | statement :: rest => (apply_grows parent s statement).trans (applyAll_grows parent _ rest)

end

end Scope

theorem transition_mem_issues {d : Diagram} {id : String} :
    .danglingReference "transition" id ∈ d.issues ↔ id ∈ d.ends ∧ d.hasState id = false := by
  have wrongEnd (other : String) (kind : StateKind) (reason : String) :
      .danglingReference "transition" id ∉ d.wrongEnd other kind reason := by
    unfold Diagram.wrongEnd
    split <;> simp
  simp [issues, unknown, transitionIssues, ends, wrongEnd, Issue.mem_dangling,
    Issue.dangling_not_mem_ofCount, ← and_assoc]

/-- Every transition of a document runs between states. -/
theorem transition_not_mem_issues {t : Tree} {d : Diagram} (e : read t = .ok d) (id : String) :
    .danglingReference "transition" id ∉ d.issues := by
  simp only [read, Reading.bind_eq_ok, Reading.pure_eq_ok] at e
  obtain ⟨body, -, rfl⟩ := e
  rw [transition_mem_issues]
  exact (Scope.applyAll_grows none { diagram := {} } body).no_unknown_end rfl

end StateDiagram

/-! ## Schemas -/

namespace Er

namespace Schema

/-- The ids at which relationships end. -/
def ends (s : Schema) : List String := s.relationships.flatMap fun r => [r.source, r.target]

theorem addEntity_grows (s : Schema) (e : Entity) : Grows hasEntity ends s (s.addEntity e) := by
  refine .of_ends_eq (fun id known => (s.roster.has_add id (by exact ⟨fun _ => rfl⟩)).trans ?_) rfl
  rw [show s.roster.has id = true from known, Bool.true_or]

theorem hasEntity_ensureEntity (s : Schema) (new id : String) :
    (s.ensureEntity new).hasEntity id = (s.hasEntity id || new == id) :=
  s.roster.has_ensure id _

/-- A relationship declares its ends. -/
theorem relate_grows (s : Schema) (r : Relationship) :
    Grows hasEntity ends s
      (((s.ensureEntity r.source).ensureEntity r.target).addRelationship r) := by
  refine .of_declared_link r.source r.target (fun id => ?_) (by simp [ends, addRelationship, ensureEntity])
  rw [← hasEntity_ensureEntity, ← hasEntity_ensureEntity]
  rfl

theorem apply_grows (s : Schema) : ∀ statement : Statement,
    Grows hasEntity ends s (s.apply statement)
  | .caption _ => .of_ends_eq (fun _ known => known) rfl
  | .direction _ => .of_ends_eq (fun _ known => known) rfl
  | .entity e => addEntity_grows s e
  | .relationship r => relate_grows s r

theorem dangling_not_mem_attributeIssues (context within id : String) (seen : List String)
    (attributes : List Attribute) :
    .danglingReference context id ∉ attributeIssues within seen attributes := by
  induction attributes generalizing seen with
  | nil => simp [attributeIssues]
  | cons a rest ih =>
    simp only [attributeIssues, List.mem_append, ih, or_false]
    split <;> simp

end Schema

open Schema

theorem relationship_mem_issues {s : Schema} {id : String} :
    .danglingReference "relationship" id ∈ s.issues ↔ id ∈ s.ends ∧ s.hasEntity id = false := by
  simp [issues, ends, Issue.mem_dangling, Issue.dangling_not_mem_ofCount,
    dangling_not_mem_attributeIssues, ← and_assoc]

/-- Every relationship of a document is one of entities. -/
theorem relationship_not_mem_issues {t : Tree} {s : Schema} (e : read t = .ok s) (id : String) :
    .danglingReference "relationship" id ∉ s.issues := by
  simp only [read, Reading.bind_eq_ok, Reading.pure_eq_ok] at e
  obtain ⟨body, -, rfl⟩ := e
  rw [relationship_mem_issues]
  exact (Grows.foldl apply_grows body {}).no_unknown_end rfl

end Er

/-! ## Networks of flows -/

namespace Sankey

namespace Network

/-- The names at which flows end. -/
def ends (n : Network) : List String := n.links.flatMap fun l => [l.source, l.target]

theorem hasNode_addNode (n : Network) (new name : String) :
    (n.addNode new).hasNode name = (n.hasNode name || new == name) :=
  n.roster.has_ensure name new

/-- A row makes the nodes between which it flows. -/
theorem addRow_grows (n : Network) (l : Link) : Grows hasNode ends n (n.addRow l) := by
  have links : (n.addRow l).links = n.links ++ [l] := rfl
  refine .of_declared_link l.source l.target (fun name => ?_) (by simp [ends, links])
  rw [← hasNode_addNode, ← hasNode_addNode]
  rfl

end Network

open Network

theorem link_mem_issues {n : Network} {id : String} :
    .danglingReference "link" id ∈ n.issues ↔ id ∈ n.ends ∧ n.hasNode id = false := by
  have own (l : Link) : .danglingReference "link" id ∈ n.linkIssues l ↔
      id ∈ [l.source, l.target] ∧ n.hasNode id = false := by
    simp only [linkIssues, List.mem_append, Issue.mem_dangling, true_and]
    split <;> simp
  simp [issues, ends, own, Issue.dangling_not_mem_ofCount, ← and_assoc]

/-- Every flow of a document runs between nodes. -/
theorem link_not_mem_issues {t : Tree} {n : Network} (e : read t = .ok n) (id : String) :
    .danglingReference "link" id ∉ n.issues := by
  simp only [read, Reading.bind_eq_ok, Reading.pure_eq_ok] at e
  obtain ⟨rows, -, rfl⟩ := e
  rw [link_mem_issues]
  exact (Grows.foldl addRow_grows rows {}).no_unknown_end rfl

end Sankey

/-! ## Flowcharts -/

namespace Flowchart

theorem exists_ofStatements {t : Tree} {c : Chart} (e : read t = .ok c) :
    ∃ direction body, c = .ofStatements direction body := by
  unfold read at e
  split at e
  all_goals
    simp only [Reading.bind_eq_ok, Reading.pure_eq_ok] at e
    obtain ⟨direction, -, body, -, rfl⟩ := e
    exact ⟨direction, body, rfl⟩

theorem edge_mem_issues {c : Chart} {id : String} :
    .danglingReference "edge" id ∈ c.issues ↔ id ∈ c.ends ∧ c.isTarget id = false := by
  simp [Chart.issues, Chart.unknown, Chart.ends, Issue.mem_dangling,
    Issue.dangling_not_mem_ofCount]

theorem duplicate_mem_issues {c : Chart} {id : String} :
    .duplicateId id ∈ c.issues ↔ (∃ s ∈ c.subgraphs, s.id = id) ∧ c.hasNode id = true := by
  have count : .duplicateId id ∉ Issue.ofCount c.nodes.length := by
    unfold Issue.ofCount
    split <;> simp
  simp [Chart.issues, Chart.unknown, count]

/-- Every edge of a document ends at nodes and subgraphs. -/
theorem edge_not_mem_issues {t : Tree} {c : Chart} (e : read t = .ok c) (id : String) :
    .danglingReference "edge" id ∉ c.issues := by
  obtain ⟨direction, body, rfl⟩ := exists_ofStatements e
  rw [edge_mem_issues, not_and, Bool.not_eq_false]
  exact Chart.ends_known direction body

/-- No id of a document means both a node and a subgraph. -/
theorem duplicate_not_mem_issues {t : Tree} {c : Chart} (e : read t = .ok c) (id : String) :
    .duplicateId id ∉ c.issues := by
  obtain ⟨direction, body, rfl⟩ := exists_ofStatements e
  rw [duplicate_mem_issues, not_and, Bool.not_eq_true]
  rintro ⟨s, hs, rfl⟩
  exact Chart.subgraphs_apart direction body hs

end Flowchart

/-! ## All kinds -/

namespace Kind

/-- What issues call a link of a model, for the kinds whose models have links that declare their
ends. -/
def linkName? : Kind → Option String
  | flowchart => some "edge"
  | sequence => some "message"
  | classDiagram | er => some "relationship"
  | state => some "transition"
  | sankey => some "link"
  | _ => none

end Kind

/-- Every link of a document leads to something that the model has, and in a flowchart no id means both
a node and a subgraph, since the two passes over its statements give all subgraphs the same ids. -/
theorem links_closed {depth : Nat} {kind : Kind} {input name : String} {content : kind.dialect.Content}
    (hname : kind.linkName? = some name) (h : kind.Reads depth input content) :
    (∀ id, .danglingReference name id ∉ kind.dialect.issues content) ∧
      (kind = .flowchart → (∀ id, .duplicateId id ∉ kind.dialect.issues content) ∧
        ∀ direction body, ((Flowchart.Chart.ofStatements direction body).subgraphs.map (·.id)).Perm
          (Flowchart.allSubgraphIds 0 body).1) := by
  obtain ⟨tree, -, hread⟩ := h
  cases kind with
  | flowchart =>
    cases hname
    exact ⟨Flowchart.edge_not_mem_issues hread, fun _ =>
      ⟨Flowchart.duplicate_not_mem_issues hread, Flowchart.Chart.ids_ofStatements⟩⟩
  | sequence =>
    cases hname
    exact ⟨Sequence.Diagram.message_not_mem_issues hread, by simp⟩
  | classDiagram =>
    cases hname
    exact ⟨ClassDiagram.Diagram.relationship_not_mem_issues hread, by simp⟩
  | state =>
    cases hname
    exact ⟨StateDiagram.transition_not_mem_issues hread, by simp⟩
  | er =>
    cases hname
    exact ⟨Er.relationship_not_mem_issues hread, by simp⟩
  | sankey =>
    cases hname
    exact ⟨Sankey.link_not_mem_issues hread, by simp⟩
  | _ => cases hname

/-- A chain leads to a subgraph that comes later, and one of the subgraphs has no id of its own. -/
theorem links_closed_flowchart :
    ∃ chart, Kind.flowchart.linkName? = some "edge" ∧
      Kind.flowchart.Reads 20 "graph TD\na & sub --> b\nsubgraph x y\nc --> a\nend\nsubgraph sub\nb\nend\n"
        chart ∧
      (∀ id, .danglingReference "edge" id ∉ chart.issues) ∧ ∀ id, .duplicateId id ∉ chart.issues := by
  obtain ⟨chart, h⟩ := Kind.exists_reads .flowchart 20
    "graph TD\na & sub --> b\nsubgraph x y\nc --> a\nend\nsubgraph sub\nb\nend\n" (by decide +kernel)
  obtain ⟨edges, others⟩ := links_closed rfl h
  exact ⟨chart, rfl, h, edges, (others rfl).1⟩

end DiagramText
