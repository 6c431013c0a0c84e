import DiagramText.Proofs.Flowchart.Names
import DiagramText.Proofs.Parse
import DiagramText.Proofs.Precedence

/-!
# Style classes

Nodes, states and classes have lists of style classes. A mention of an entity may name some, and a directive
gives one to all its targets, but only to those that are there already: a directive is carried out when it is
read, and what is mentioned later for the first time is passed over.

`Dresses` is what a part of a document does to the entities of a model, where `Styling` is what it says. By
induction on statements it holds of whole documents of all three kinds. So the style classes of an entity are
those that a mention gives it, and those of directives behind its first mention (`styleClasses_iff`). Where
a directive stands does matter, but it is never worse behind all else.
-/

namespace DiagramText

/-! ## What a document says -/

/-- What a part of a document says of style classes: a mention of an entity gives it those that it names,
and a directive gives one to all its targets. -/
inductive Styling where
  | mention (id : String) (names : List String)
  | directive (targets : List String) (name : String)
deriving DecidableEq, Inhabited

namespace Styling

/-- Whether this is a mention of an entity. -/
def Mentions (id : String) : Styling → Prop
  | mention other _ => other = id
  | directive _ _ => False

/-- Whether this is a mention of an entity that gives it a style class. -/
def Suffixes (id name : String) : Styling → Prop
  | mention other names => other = id ∧ name ∈ names
  | directive _ _ => False

/-- Whether this is a directive that has an entity for a target and gives a style class. -/
def Directs (id name : String) : Styling → Prop
  | mention _ _ => False
  | directive targets other => id ∈ targets ∧ other = name

end Styling

open Styling

variable {uses more : List Styling} {id name : String}

/-- Whether an entity is mentioned. -/
def Mentioned (uses : List Styling) (id : String) : Prop := ∃ use ∈ uses, use.Mentions id

/-- Whether a mention gives an entity a style class. -/
def Suffixed (uses : List Styling) (id name : String) : Prop := ∃ use ∈ uses, use.Suffixes id name

/-- Whether a directive gives an entity a style class and stands behind a mention of the entity. -/
def Directed (uses : List Styling) (id name : String) : Prop := Precedes (Mentions id) (Directs id name) uses

theorem mentioned_append : Mentioned (uses ++ more) id ↔ Mentioned uses id ∨ Mentioned more id := by
  simp only [Mentioned, List.mem_append, or_and_right, exists_or]

theorem suffixed_append : Suffixed (uses ++ more) id name ↔ Suffixed uses id name ∨ Suffixed more id name := by
  simp only [Suffixed, List.mem_append, or_and_right, exists_or]

theorem directed_append : Directed (uses ++ more) id name ↔
    Directed uses id name ∨ Directed more id name ∨
      Mentioned uses id ∧ ∃ use ∈ more, use.Directs id name :=
  precedes_append

/-! ## What entities have -/

section

variable {α : Type} [Keyed α] (classes : α → List String)

/-- Whether the entity with an id has a style class. -/
def Wears (items : List α) (id name : String) : Prop := ∃ a ∈ Keyed.find? items id, name ∈ classes a

variable {classes} {items items' : List α}

theorem wears_update {change : α → α} {key : String} (h : ∀ a, Keyed.id (change a) = Keyed.id a)
    {given : List String} (gives : ∀ a name, name ∈ classes (change a) ↔ name ∈ classes a ∨ name ∈ given) :
    Wears classes (Keyed.update items key change) id name ↔
      Wears classes items id name ∨ key = id ∧ name ∈ given ∧ Keyed.has items id = true := by
  rw [Wears, Keyed.find?_update (fun a same => (h a).trans same), Wears, Keyed.has_eq_isSome]
  by_cases same : key = id
  · subst same
    cases Keyed.find? items key with
    | none => simp
    | some a => simp [gives]
  · simp [same]

theorem wears_add {join : α → α → α} {item : α} (h : ∀ a, Keyed.id (join a item) = Keyed.id a)
    (gives : ∀ a name, name ∈ classes (join a item) ↔ name ∈ classes a ∨ name ∈ classes item) :
    Wears classes (Keyed.add join items item) id name ↔
      Wears classes items id name ∨ Keyed.id item = id ∧ name ∈ classes item := by
  rw [Wears, Keyed.find?_add (fun a same => (h a).trans same), Wears]
  by_cases same : Keyed.id item = id
  · subst same
    cases Keyed.find? items (Keyed.id item) with
    | none => simp
    | some a => simp [gives]
  · simp [same]

variable (classes) in
/-- What a part of a document does to entities: those that it mentions are there after it, and they have the
style classes that it gives them. -/
structure Dresses (uses : List Styling) (items items' : List α) : Prop where
  has : ∀ id, Keyed.has items' id = true ↔ Keyed.has items id = true ∨ Mentioned uses id
  wears : ∀ id name, Wears classes items' id name ↔
    Wears classes items id name ∨ Suffixed uses id name ∨ Directed uses id name ∨
      Keyed.has items id = true ∧ ∃ use ∈ uses, use.Directs id name

namespace Dresses

theorem refl (items : List α) : Dresses classes [] items items where
  has id := by simp [Mentioned]
  wears id name := by simp [Suffixed, Directed, not_precedes_nil]

theorem of_eq (same : items' = items) : Dresses classes [] items items' := by
  rw [same]
  exact refl items

theorem trans {items'' : List α} (first : Dresses classes uses items items')
    (second : Dresses classes more items' items'') : Dresses classes (uses ++ more) items items'' where
  has id := by rw [second.has, first.has, mentioned_append, or_assoc]
  wears id name := by
    rw [second.wears, first.wears, first.has, suffixed_append, directed_append]
    simp only [List.mem_append, or_and_right, exists_or, and_or_left]
    grind

/-- An entity is mentioned, and given style classes. -/
theorem of_mention {names : List String}
    (has : ∀ other, Keyed.has items' other = (Keyed.has items other || id == other))
    (wears : ∀ other name, Wears classes items' other name ↔
      Wears classes items other name ∨ id = other ∧ name ∈ names) :
    Dresses classes [.mention id names] items items' where
  has other := by simp [has, Mentioned, Mentions]
  wears other name := by
    rw [wears]
    simp [Suffixed, Suffixes, Directed, not_precedes_singleton, Directs]

/-- Those targets of a directive are given a style class that are there. -/
theorem of_directive {targets : List String}
    (has : ∀ id, Keyed.has items' id = Keyed.has items id)
    (wears : ∀ id other, Wears classes items' id other ↔
      Wears classes items id other ∨ Keyed.has items id = true ∧ id ∈ targets ∧ name = other) :
    Dresses classes [.directive targets name] items items' where
  has id := by simp [has, Mentioned, Mentions]
  wears id other := by
    rw [wears]
    simp [Suffixed, Suffixes, Directed, not_precedes_singleton, Directs]

theorem add {join : α → α → α} {item : α} (h : ∀ a, Keyed.id (join a item) = Keyed.id a)
    (gives : ∀ a name, name ∈ classes (join a item) ↔ name ∈ classes a ∨ name ∈ classes item) :
    Dresses classes [.mention (Keyed.id item) (classes item)] items (Keyed.add join items item) :=
  .of_mention (Keyed.has_add (fun a same => (h a).trans same) items) fun _ _ => wears_add h gives

theorem ensure (item : α) (bare : classes item = []) (items : List α) :
    Dresses classes [.mention (Keyed.id item) []] items (Keyed.ensure items item) := by
  rw [← bare]
  exact .add (fun _ => rfl) (by simp [bare])

/-- A change that leaves style classes as they are. -/
theorem update {change : α → α} (h : ∀ a, Keyed.id (change a) = Keyed.id a)
    (same : ∀ a, classes (change a) = classes a) (items : List α) (key : String) :
    Dresses classes [] items (Keyed.update items key change) where
  has id := by
    rw [Keyed.has_update fun a known => (h a).trans known]
    simp [Mentioned]
  wears id name := by
    have gives (a : α) (name : String) : name ∈ classes (change a) ↔ name ∈ classes a ∨ name ∈ [] := by
      simp [same]
    rw [wears_update h gives]
    simp [Suffixed, Directed, not_precedes_nil]

/-- A mention that gives style classes to what is there by then. -/
theorem suffix {given : List String} (h : Dresses classes [.mention id []] items items') {change : α → α}
    (same : ∀ a, Keyed.id (change a) = Keyed.id a)
    (gives : ∀ a name, name ∈ classes (change a) ↔ name ∈ classes a ∨ name ∈ given) :
    Dresses classes [.mention id given] items (Keyed.update items' id change) := by
  refine .of_mention (fun other => ?_) (fun other name => ?_)
  · rw [Keyed.has_update fun a known => (same a).trans known, Bool.eq_iff_iff, h.has]
    simp [Mentioned, Mentions]
  · rw [wears_update same gives, h.wears, h.has]
    simp [Suffixed, Suffixes, Directed, not_precedes_singleton, Directs, Mentioned, Mentions]
    grind

/-- A loop of which each round dresses entities. -/
theorem each {μ β : Type} {entities : μ → List α} {step : μ → β → μ} {styling : β → List Styling}
    (h : ∀ m b, Dresses classes (styling b) (entities m) (entities (step m b))) (bs : List β) (m : μ) :
    Dresses classes (bs.flatMap styling) (entities m) (entities (bs.foldl step m)) := by
  induction bs generalizing m with
  | nil => exact .refl _
  | cons b bs ih => exact (h m b).trans (ih (step m b))

/-- A directive goes through its targets one by one. -/
theorem foldl {μ : Type} {entities : μ → List α} {step : μ → String → μ} (change : α → α)
    (h : ∀ m id, entities (step m id) = Keyed.update (entities m) id change)
    (same : ∀ a, Keyed.id (change a) = Keyed.id a)
    (gives : ∀ a other, other ∈ classes (change a) ↔ other ∈ classes a ∨ other ∈ [name])
    (targets : List String) (m : μ) :
    Dresses classes [.directive targets name] (entities m) (entities (targets.foldl step m)) := by
  have has (m : μ) (target id : String) :
      Keyed.has (entities (step m target)) id = Keyed.has (entities m) id := by
    rw [h, Keyed.has_update fun a known => (same a).trans known]
  refine .of_directive (fun id => ?_) (fun id other => ?_)
  · exact @foldl_same _ _ _ (fun m => Keyed.has (entities m) id) step targets (fun target _ m => has m target id) m
  · induction targets generalizing m with
    | nil => simp
    | cons target targets ih =>
      rw [List.foldl_cons, ih, has, h, wears_update same gives]
      simp only [List.mem_cons, List.not_mem_nil, or_false]
      grind

end Dresses

end

/-- A style class is given by adding it to those that are there. -/
theorem mem_add_singleton {items : List String} {item a : String} :
    a ∈ Distinct.add items item ↔ a ∈ items ∨ a ∈ [item] := by
  rw [Distinct.mem_add, List.mem_singleton]

/-! ## Class diagrams -/

namespace ClassDiagram

mutual

/-- What a statement says of style classes. -/
def stylings : Statement → List Styling
  | .declare c => [.mention c.id c.styleClasses]
  | .annotate id _ | .member id _ => [.mention id []]
  | .relationship r => [.mention r.source [], .mention r.target []]
  | .namespace _ body => allStylings body ++ (declared body).flatMap fun id => [.mention id []]
  | .styleClass targets name => [.directive targets name]
  | _ => []

/-- What statements say of style classes. -/
def allStylings : List Statement → List Styling
  | [] => []
  | statement :: rest => stylings statement ++ allStylings rest

end

namespace Diagram

theorem ensureClass_dresses (d : Diagram) (id : String) :
    Dresses Class.styleClasses [.mention id []] d.classes (d.ensureClass id).classes := by
  rw [classes_ensureClass]
  exact .ensure ({ id := id } : Class) (by rfl) d.classes

theorem addClass_dresses (d : Diagram) (c : Class) :
    Dresses Class.styleClasses [.mention c.id c.styleClasses] d.classes (d.addClass c).classes := by
  rw [classes_addClass]
  exact .add (fun _ => rfl) (fun _ _ => List.mem_append)

theorem changeClass_dresses (d : Diagram) (id : String) (change : Class → Class)
    (keeps : Keyed.KeepsId change) (same : ∀ c, (change c).styleClasses = c.styleClasses) :
    Dresses Class.styleClasses [.mention id []] d.classes (d.changeClass id change keeps).classes := by
  rw [classes_changeClass]
  exact (ensureClass_dresses d id).trans (.update keeps.id_eq same _ id)

mutual

theorem apply_dresses (d : Diagram) : ∀ s : Statement,
    Dresses Class.styleClasses (stylings s) d.classes (d.apply s).classes
  | .declare c => addClass_dresses d c
  | .annotate id _ => changeClass_dresses d id _ (by exact ⟨fun _ => rfl⟩) (by exact fun _ => rfl)
  | .member id m => by
    refine changeClass_dresses d id (·.addMember m) ⟨fun c => c.id_addMember m⟩ fun c => ?_
    simp only [Class.addMember]
    split <;> rfl
  | .relationship r => (ensureClass_dresses d r.source).trans (ensureClass_dresses _ r.target)
  | .namespace name body =>
    (applyAll_dresses d body).trans <| .each
      (fun d id => changeClass_dresses d id ({ · with inNamespace := some name }) ⟨fun _ => rfl⟩ (fun _ => rfl))
      (declared body) _
  | .styleClass targets name =>
    .foldl (fun c => { c with styleClasses := c.styleClasses ++ [name] })
      (fun d id => classes_assignStyleClass d id name) (fun _ => rfl)
      (fun _ _ => List.mem_append) targets d
  | .caption _ | .direction _ | .note _ | .click _ | .style _ _ => .refl _

theorem applyAll_dresses (d : Diagram) : ∀ body : List Statement,
    Dresses Class.styleClasses (allStylings body) d.classes (d.applyAll body).classes
  | [] => .refl _
  | s :: rest => (apply_dresses d s).trans (applyAll_dresses (d.apply s) rest)

end

end Diagram

end ClassDiagram

/-! ## State diagrams -/

namespace StateDiagram

/-- What a mention says of style classes. -/
def stylingOf (parent : Option String) (source : Bool) : Mention → Styling
  | .terminal => .mention (terminalId parent source) []
  | .named id class? => .mention id class?.toList

mutual

/-- What a statement inside `parent` says of style classes. -/
def stylings (parent : Option String) : Statement → List Styling
  | .composite id _ body => .mention id [] :: allStylings (some id) body
  | .declare s => [.mention s.id s.styleClasses]
  | .transition source target _ => [stylingOf parent true source, stylingOf parent false target]
  | .reference m => [stylingOf parent true m]
  | .assignClass targets name => [.directive targets name]
  | _ => []

/-- What statements inside `parent` say of style classes. -/
def allStylings (parent : Option String) : List Statement → List Styling
  | [] => []
  | statement :: rest => stylings parent statement ++ allStylings parent rest

end

namespace Scope

theorem declare_dresses (parent : Option String) (s : Scope) (state : State) :
    Dresses State.styleClasses [.mention state.id state.styleClasses] s.diagram.states
      (s.declare parent state).diagram.states := by
  have added (placed : State) (id : placed.id = state.id) (worn : placed.styleClasses = state.styleClasses) :
      Dresses State.styleClasses [.mention state.id state.styleClasses] s.diagram.states
        (s.diagram.addState placed).states := by
    rw [← id, ← worn, Diagram.states_addState]
    exact .add (fun _ => rfl) (fun _ _ => List.mem_append)
  simp only [declare]
  split
  · exact added state rfl rfl
  · exact added _ rfl rfl

theorem resolve_dresses (parent : Option String) (s : Scope) (m : Mention) (source : Bool) :
    Dresses State.styleClasses [stylingOf parent source m] s.diagram.states
      (s.resolve parent m source).2.diagram.states := by
  cases m with
  | terminal =>
    exact declare_dresses parent s
      { id := terminalId parent source, kind := if source then .start else .finish }
  | named id class? =>
    cases class? with
    | none => exact declare_dresses parent s { id := id }
    | some name =>
      show Dresses _ _ _ ((s.declare parent { id := id }).diagram.assignClass id name).states
      rw [Diagram.states_assignClass]
      exact (declare_dresses parent s { id := id }).suffix (fun _ => rfl) (fun _ _ => mem_add_singleton)

mutual

theorem apply_dresses (parent : Option String) (s : Scope) : ∀ statement : Statement,
    Dresses State.styleClasses (stylings parent statement) s.diagram.states
      (apply parent s statement).diagram.states
  | .direction _ => by
    simp only [apply]
    split <;> exact .refl _
  | .composite id label body =>
    (declare_dresses parent s { id, kind := .composite (regions body), label }).trans
      (applyAll_dresses (some id) ⟨_, 0⟩ body)
  | .declare state => declare_dresses parent s state
  | .transition source target _ =>
    (resolve_dresses parent s source true).trans (resolve_dresses parent _ target false)
  | .reference m => resolve_dresses parent s m true
  | .assignClass targets name =>
    .foldl (fun a => { a with styleClasses := Distinct.add a.styleClasses name })
      (fun d id => d.states_assignClass id name) (fun _ => rfl) (fun _ _ => mem_add_singleton) targets s.diagram
  | .accessible _ | .regionBreak | .note _ | .defineClass _ _ => .refl _

theorem applyAll_dresses (parent : Option String) (s : Scope) : ∀ body : List Statement,
    Dresses State.styleClasses (allStylings parent body) s.diagram.states
      (applyAll parent s body).diagram.states
  | [] => .refl _
  | statement :: rest =>
    (apply_dresses parent s statement).trans (applyAll_dresses parent (apply parent s statement) rest)

end

end Scope

end StateDiagram

/-! ## Flowcharts -/

namespace Flowchart

variable (reserved : List String)

/-- What mentions of nodes say of style classes, where `reserved` holds the ids of subgraphs. -/
def groupStylings (group : List Mention) : List Styling :=
  group.flatMap fun m => if reserved.contains m.id then [] else [.mention m.id m.class?.toList]

mutual

/-- What a statement says of the style classes of nodes. -/
def stylings : Statement → List Styling
  | .nodes group => groupStylings reserved group
  | .chain first links =>
    groupStylings reserved first ++ links.flatMap fun link => groupStylings reserved link.targets
  | .subgraph _ _ body => allStylings body
  | .assignClass targets name => [.directive targets name]
  | _ => []

/-- What statements say of the style classes of nodes. -/
def allStylings : List Statement → List Styling
  | [] => []
  | statement :: rest => stylings statement ++ allStylings rest

end

theorem Chart.addNode_dresses (c : Chart) (node : Node) :
    Dresses Node.classes [.mention node.id node.classes] c.nodes (c.addNode node).nodes := by
  rw [nodes_addNode]
  exact .add (fun _ => rfl) (fun _ _ => Distinct.mem_addAll)

theorem Chart.ensureNode_dresses (c : Chart) (id : String) :
    Dresses Node.classes [.mention id []] c.nodes (c.ensureNode id).nodes := by
  rw [nodes_ensureNode]
  exact .ensure ({ id, label := id } : Node) (by rfl) c.nodes

namespace Scope

theorem mention_dresses (s : Scope) (m : Mention) :
    Dresses Node.classes (if reserved.contains m.id then [] else [.mention m.id m.class?.toList])
      s.chart.nodes (s.mention reserved m).chart.nodes := by
  by_cases taken : m.id ∈ reserved
  · rw [mention_reserved s taken, if_pos (List.contains_iff_mem.2 taken)]
    exact .refl _
  · obtain ⟨c, made, e⟩ := mention_free s taken
    have declared : Dresses Node.classes [.mention m.id []] s.chart.nodes c.nodes := by
      obtain rfl | ⟨label, shape, rfl⟩ := made
      · exact s.chart.ensureNode_dresses m.id
      · exact s.chart.addNode_dresses { id := m.id, label, shape }
    rw [e, if_neg fun known => taken (List.contains_iff_mem.1 known)]
    cases m.class? with
    | none => exact declared
    | some name =>
      show Dresses _ _ _ (c.addNodeClass m.id name).nodes
      rw [Chart.nodes_addNodeClass]
      exact declared.suffix (fun _ => rfl) (fun _ _ => mem_add_singleton)

theorem mentionAll_dresses (s : Scope) (group : List Mention) :
    Dresses Node.classes (groupStylings reserved group) s.chart.nodes
      (s.mentionAll reserved group).chart.nodes :=
  .each (fun s m => mention_dresses reserved s m) group s

theorem follow_dresses (s : Scope) (sources : List Mention) (links : List Link) :
    Dresses Node.classes (links.flatMap fun link => groupStylings reserved link.targets) s.chart.nodes
      (s.follow reserved sources links).chart.nodes := by
  induction links generalizing s sources with
  | nil => exact .refl _
  | cons link links ih =>
    have rest := ih ((s.mentionAll reserved link.targets).onChart
      ((edgesOf sources link).foldl Chart.addEdge)) link.targets
    rw [onChart, nodes_addEdges] at rest
    exact (mentionAll_dresses reserved s link.targets).trans rest

mutual

theorem apply_dresses (parent : Option String) (s : Scope) : ∀ statement : Statement,
    Dresses Node.classes (stylings reserved statement) s.chart.nodes
      (apply reserved parent s statement).chart.nodes
  | .direction _ => by
    simp only [apply]
    split <;> exact .refl _
  | .nodes group => mentionAll_dresses reserved s group
  | .chain first links => (mentionAll_dresses reserved s first).trans (follow_dresses reserved _ first links)
  | .subgraph id title body =>
    applyAll_dresses (some (subgraphId s.generated id title).1)
      { chart := s.chart, generated := (subgraphId s.generated id title).2 } body
  | .assignClass targets name =>
    .foldl (fun a => { a with classes := Distinct.add a.classes name })
      (fun c id => c.nodes_addNodeClass id name) (fun _ => rfl) (fun _ _ => mem_add_singleton) targets s.chart
  | .defineClass names style =>
    .of_eq (foldl_same (fun name _ c => (rfl : (c.defineClass name style).nodes = c.nodes)) s.chart)
  | .edgeStyle (some indexes) style =>
    .of_eq (foldl_same (fun i _ c => (rfl : (c.addEdgeStyle (some i) style).nodes = c.nodes)) s.chart)
  | .caption _ | .style _ _ | .edgeStyle none _ | .click _ => .refl _

theorem applyAll_dresses (parent : Option String) (s : Scope) : ∀ body : List Statement,
    Dresses Node.classes (allStylings reserved body) s.chart.nodes
      (applyAll reserved parent s body).chart.nodes
  | [] => .refl _
  | statement :: rest =>
    (apply_dresses parent s statement).trans (applyAll_dresses parent (apply reserved parent s statement) rest)

end

end Scope

end Flowchart

/-! ## Models -/

/-- What style classes entities have in the end: `found?` finds those of the entity with an id. -/
structure Styled (found? : String → Option (List String)) (uses : List Styling) : Prop where
  mentioned : ∀ id, (found? id).isSome = true ↔ Mentioned uses id
  given : ∀ id names, found? id = some names →
    ∀ name, name ∈ names ↔ Suffixed uses id name ∨ Directed uses id name

theorem Dresses.styled {α : Type} [Keyed α] {classes : α → List String} {items : List α}
    (h : Dresses classes uses [] items) {find? : String → Option α} (found : ∀ id, find? id = Keyed.find? items id) :
    Styled (fun id => (find? id).map classes) uses where
  mentioned id := by
    rw [Option.isSome_map, found, ← Keyed.has_eq_isSome, h.has]
    simp [Keyed.has]
  given id names hnames name := by
    obtain ⟨a, ha, rfl⟩ := Option.map_eq_some_iff.1 hnames
    rw [found] at ha
    have worn : name ∈ classes a ↔ Wears classes items id name := by simp [Wears, ha]
    rw [worn, h.wears]
    simp [Wears, Keyed.find?, Keyed.has]

section

variable {targets : List String} {given : String}

theorem mentioned_insert :
    Mentioned (uses ++ .directive targets given :: more) id ↔ Mentioned (uses ++ more) id := by
  rw [List.append_cons, mentioned_append, mentioned_append, mentioned_append]
  simp [Mentioned, Mentions]

theorem suffixed_insert :
    Suffixed (uses ++ .directive targets given :: more) id name ↔ Suffixed (uses ++ more) id name := by
  rw [List.append_cons, suffixed_append, suffixed_append, suffixed_append]
  simp [Suffixed, Suffixes]

/-- A directive gives its targets its style class, as far as they are mentioned before it. -/
theorem directed_insert : Directed (uses ++ .directive targets given :: more) id name ↔
    Directed (uses ++ more) id name ∨ Mentioned uses id ∧ id ∈ targets ∧ given = name := by
  rw [List.append_cons, directed_append, directed_append, directed_append]
  simp only [mentioned_append]
  simp [Directed, not_precedes_singleton, Directs, Mentioned, Mentions]
  grind

/-- A directive that is put behind all else gives its style class to all its targets, and no entity loses
one. -/
theorem Styled.moved {found? moved? : String → Option (List String)}
    (h : Styled found? (uses ++ .directive targets given :: more))
    (h' : Styled moved? (uses ++ more ++ [.directive targets given])) {names : List String}
    (hnames : found? id = some names) :
    ∃ names', moved? id = some names' ∧ ∀ name, name ∈ names' ↔ name ∈ names ∨ id ∈ targets ∧ given = name := by
  have mentioned : Mentioned (uses ++ more) id := mentioned_insert.1 ((h.mentioned id).1 (by simp [hnames]))
  have there : (moved? id).isSome = true := by
    rw [h'.mentioned, mentioned_insert, List.append_nil]
    exact mentioned
  obtain ⟨names', hnames'⟩ := Option.isSome_iff_exists.1 there
  refine ⟨names', hnames', fun name => ?_⟩
  rw [h'.given id names' hnames', h.given id names hnames, suffixed_insert, suffixed_insert, directed_insert,
    directed_insert, List.append_nil]
  grind

end

namespace Kind

/-- Whether the entities of a kind have lists of style classes. -/
def hasStyleClasses : Kind → Bool
  | flowchart | state | classDiagram => true
  | _ => false

/-- What a document says of style classes, for the kinds whose entities have lists of them. -/
def stylings? : Kind → Tree → Option (List Styling)
  | flowchart, t =>
    (Flowchart.readBody t.height (t.list "statements")).toOption.map fun body =>
      Flowchart.allStylings (Flowchart.allSubgraphIds 0 body).1 body
  | state, t =>
    (StateDiagram.readBody t.height (t.list "statements")).toOption.map (StateDiagram.allStylings none)
  | classDiagram, t =>
    (ClassDiagram.readBody t.height (t.list "statements")).toOption.map ClassDiagram.allStylings
  | _, _ => none

/-- The style classes of the entity with an id: of a node, a state or a class. -/
def styleClasses? : (kind : Kind) → kind.dialect.Content → String → Option (List String)
  | flowchart, (c : Flowchart.Chart), id => (c.node? id).map Flowchart.Node.classes
  | state, (d : StateDiagram.Diagram), id => (d.state? id).map StateDiagram.State.styleClasses
  | classDiagram, (d : ClassDiagram.Diagram), id => (d.class? id).map ClassDiagram.Class.styleClasses
  | _, _, _ => none

end Kind

theorem styled_of_read {kind : Kind} {tree : Tree} {content : kind.dialect.Content}
    (hkind : kind.hasStyleClasses = true) (hread : kind.dialect.read tree = .ok content) :
    ∃ uses, kind.stylings? tree = some uses ∧ Styled (kind.styleClasses? content) uses := by
  cases kind with
  | flowchart =>
    obtain ⟨direction, body, hbody, rfl⟩ := Flowchart.exists_statements_of_read hread
    have dressed := Flowchart.Scope.applyAll_dresses (Flowchart.allSubgraphIds 0 body).1 none
      { chart := { direction := direction } } body
    exact ⟨_, Option.map_eq_some_iff.2 ⟨body, Reading.toOption_eq_some.2 hbody, rfl⟩,
      dressed.styled (Flowchart.Chart.node?_eq _)⟩
  | state =>
    obtain ⟨body, hbody, e⟩ := Reading.bind_eq_ok.1 hread
    obtain rfl := Reading.pure_eq_ok.1 e
    have dressed := StateDiagram.Scope.applyAll_dresses none { diagram := {} } body
    exact ⟨_, Option.map_eq_some_iff.2 ⟨body, Reading.toOption_eq_some.2 hbody, rfl⟩,
      dressed.styled (StateDiagram.Diagram.state?_eq _)⟩
  | classDiagram =>
    obtain ⟨body, hbody, e⟩ := Reading.bind_eq_ok.1 hread
    obtain rfl := Reading.pure_eq_ok.1 e
    have dressed := ClassDiagram.Diagram.applyAll_dresses {} body
    exact ⟨_, Option.map_eq_some_iff.2 ⟨body, Reading.toOption_eq_some.2 hbody, rfl⟩,
      dressed.styled (ClassDiagram.Diagram.class?_eq _)⟩
  | _ => cases hkind

/-- What a document that its grammar takes says of style classes. -/
def stylingsOf? (options : ParseOptions) (kind : Kind) (input : String) : Option (List Styling) :=
  (kind.dialect.grammar.parse (options.nesting + 1) (sourceOf options input)).toOption.bind kind.stylings?

theorem styled_of_parseAs {options : ParseOptions} {kind : Kind} {input : String} {m : Model}
    (hkind : kind.hasStyleClasses = true) (h : parseAs .all options kind input = .ok m) :
    ∃ uses, stylingsOf? options kind input = some uses ∧ Styled (m.kind.styleClasses? m.content) uses := by
  obtain ⟨tree, content, hparse, hread, hchecked⟩ := parseAs_eq_ok.1 h
  obtain rfl := eq_of_checkedModel hchecked
  rw [stylingsOf?, hparse]
  exact styled_of_read hkind hread

/-- The entities of a model are those that its document mentions. They have the style classes that a mention
gives them, and those that a directive gives them behind the first mention, and no others. If a directive is
put behind all else, then all its targets have its style class, and no entity has lost one. -/
theorem styleClasses_iff {options : ParseOptions} {kind : Kind} {input : String} {m : Model}
    (hkind : kind.hasStyleClasses = true) (h : parseAs .all options kind input = .ok m) :
    ∃ uses, stylingsOf? options kind input = some uses ∧
      (∀ id, (m.kind.styleClasses? m.content id).isSome = true ↔ Mentioned uses id) ∧
      (∀ id names, m.kind.styleClasses? m.content id = some names →
        ∀ name, name ∈ names ↔ Suffixed uses id name ∨ Directed uses id name) ∧
      ∀ before targets given after, uses = before ++ .directive targets given :: after →
        ∀ input' m', parseAs .all options kind input' = .ok m' →
          stylingsOf? options kind input' = some (before ++ after ++ [.directive targets given]) →
          ∀ id names, m.kind.styleClasses? m.content id = some names →
            ∃ names', m'.kind.styleClasses? m'.content id = some names' ∧
              ∀ name, name ∈ names' ↔ name ∈ names ∨ id ∈ targets ∧ given = name := by
  obtain ⟨uses, hu, styled⟩ := styled_of_parseAs hkind h
  refine ⟨uses, hu, styled.mentioned, styled.given, ?_⟩
  rintro before targets given after rfl input' m' h' hu' id names hnames
  obtain ⟨uses', hu'', styled'⟩ := styled_of_parseAs hkind h'
  obtain rfl := Option.some.inj (hu'.symm.trans hu'')
  exact styled.moved styled' hnames

/-- A directive between the first mentions of its two targets, and the same one behind both. -/
theorem styleClasses_flowchart :
    ∃ m m' names names',
      parseAs .all { nesting := 20 } .flowchart "graph TD\nA:::warm\nclass A,B hot\nB --> A\n" = .ok m ∧
      parseAs .all { nesting := 20 } .flowchart "graph TD\nA:::warm\nB --> A\nclass A,B hot\n" = .ok m' ∧
      m.kind.styleClasses? m.content "B" = some names ∧ m'.kind.styleClasses? m'.content "B" = some names' ∧
      ∀ name, name ∈ names' ↔ name ∈ names ∨ "B" ∈ ["A", "B"] ∧ "hot" = name := by
  obtain ⟨m, hm, -⟩ := @exists_parseAs .all { nesting := 20 } .flowchart
    "graph TD\nA:::warm\nclass A,B hot\nB --> A\n" (fun _ => true) (by decide +kernel)
  obtain ⟨m', hm', -⟩ := @exists_parseAs .all { nesting := 20 } .flowchart
    "graph TD\nA:::warm\nB --> A\nclass A,B hot\n" (fun _ => true) (by decide +kernel)
  obtain ⟨uses, hu, there, -, moved⟩ := styleClasses_iff rfl hm
  have found : stylingsOf? { nesting := 20 } .flowchart "graph TD\nA:::warm\nclass A,B hot\nB --> A\n" =
      some ([.mention "A" ["warm"]] ++ .directive ["A", "B"] "hot" :: [.mention "B" [], .mention "A" []]) := by
    decide +kernel
  obtain rfl := Option.some.inj (found.symm.trans hu)
  obtain ⟨names, hnames⟩ := Option.isSome_iff_exists.1 ((there "B").2 ⟨.mention "B" [], by simp, rfl⟩)
  obtain ⟨names', hnames', gained⟩ := moved _ _ _ _ rfl _ m' hm' (by decide +kernel) "B" names hnames
  exact ⟨m, m', names, names', hm, hm', hnames, hnames', gained⟩

/-- A directive before the first mention of its target gives it nothing, but would do so behind it. -/
theorem exists_directive_without_effect :
    ∃ m m', parseAs .all { nesting := 20 } .flowchart "graph TD\nclass A hot\nA --> B\n" = .ok m ∧ m.issues = [] ∧
      m.kind.styleClasses? m.content "A" = some [] ∧
      parseAs .all { nesting := 20 } .flowchart "graph TD\nA --> B\nclass A hot\n" = .ok m' ∧ m'.issues = [] ∧
      m'.kind.styleClasses? m'.content "A" = some ["hot"] := by
  obtain ⟨m, hm, htest⟩ := @exists_parseAs .all { nesting := 20 } .flowchart "graph TD\nclass A hot\nA --> B\n"
    (fun m => decide (m.issues = [] ∧ m.kind.styleClasses? m.content "A" = some [])) (by decide +kernel)
  obtain ⟨m', hm', htest'⟩ := @exists_parseAs .all { nesting := 20 } .flowchart "graph TD\nA --> B\nclass A hot\n"
    (fun m => decide (m.issues = [] ∧ m.kind.styleClasses? m.content "A" = some ["hot"])) (by decide +kernel)
  obtain ⟨valid, bare⟩ := of_decide_eq_true htest
  obtain ⟨valid', worn⟩ := of_decide_eq_true htest'
  exact ⟨m, m', hm, valid, bare, hm', valid', worn⟩

end DiagramText
