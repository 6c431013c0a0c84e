import DiagramText.ClassDiagram.Diagram
import DiagramText.Er.Schema
import DiagramText.Proofs.Flowchart.NodeStyles
import DiagramText.Proofs.Indexed
import DiagramText.Sankey
import DiagramText.StateDiagram.Diagram

/-!
# Models with an index

The models of five kinds keep an index with their entities: the nodes of a flowchart and of a sankey diagram, classes,
states, and the entities of an er diagram. Each call on such a model is a run of steps on the entities and the index
(`Store.index_call`), so the index is coherent after any calls on a new model (`Store.coherent_after`): it has exactly
the ids that are there with their places, and an entity that is found by its id is the only one that has it.

Ids stand in the order in which they are first mentioned. Further calls leave all of them where they are, and leave
the entities alone that they are not about.
-/

namespace DiagramText

open Keyed (ids)

/-- A kind of model with entities that are found through an index. The calls that make up a model are steps of these
entities with their index. -/
structure Store where
  Model : Type
  Call : Type
  Entity : Type
  keyed : Keyed Entity
  fresh : Model
  call : Model → Call → Model
  index : Model → Indexed Entity
  has : Model → String → Bool
  find? : Model → String → Option Entity
  steps : Call → List (Step Entity)
  index_fresh : index fresh = {}
  index_call : ∀ m c, index (call m c) = (steps c).foldl Indexed.apply (index m)
  has_eq : ∀ m key, has m key = (index m).has key
  find?_eq : ∀ m key, find? m key = (index m).find? key

attribute [instance] Store.keyed

namespace Store

variable {store : Store}

/-- The model after calls on a new one. -/
def after (store : Store) (calls : List store.Call) : store.Model := calls.foldl store.call store.fresh

/-- The entities of a model, in their order. -/
def entities (store : Store) (m : store.Model) : List store.Entity := (store.index m).entries

/-- The ids that calls ask for, in their order. -/
def mentions (store : Store) (calls : List store.Call) : List String :=
  (calls.flatMap store.steps).filterMap Step.mention?

/-- The ids of the entities that a call is about. -/
def touched (store : Store) (call : store.Call) : List String := (store.steps call).map Step.key

/-- The entities of a model are distinct by their ids, its index has exactly their ids with their places, and the one
that is found by an id is the only one that has it. -/
structure Indexes (store : Store) (m : store.Model) : Prop where
  nodup : (ids (store.entities m)).Nodup
  places_iff : ∀ key i, (store.index m).places key = some i ↔ (store.entities m)[i]?.map Keyed.id = some key
  has_iff : ∀ key, store.has m key = true ↔ key ∈ ids (store.entities m)
  find?_iff : ∀ key entity, store.find? m key = some entity ↔ entity ∈ store.entities m ∧ Keyed.id entity = key

theorem index_foldl_call (m : store.Model) (calls : List store.Call) :
    store.index (calls.foldl store.call m) = (calls.flatMap store.steps).foldl Indexed.apply (store.index m) := by
  induction calls generalizing m with
  | nil => rfl
  | cons call calls ih => rw [List.foldl_cons, ih, store.index_call, List.flatMap_cons, List.foldl_append]

theorem coherent_after (calls : List store.Call) : (store.index (store.after calls)).Coherent := by
  rw [after, index_foldl_call, store.index_fresh]
  exact (Indexed.coherent_empty.foldl_apply _).1

theorem indexes_after (calls : List store.Call) : store.Indexes (store.after calls) where
  nodup := (coherent_after calls).nodup
  places_iff := coherent_after calls
  has_iff key := by
    rw [store.has_eq]
    exact (coherent_after calls).has_iff key
  find?_iff key entity := by
    rw [store.find?_eq]
    exact (coherent_after calls).find?_eq_some

/-- Further calls take their steps on the entities. -/
theorem entities_after_append (calls more : List store.Call) :
    store.entities (store.after (calls ++ more)) =
      (more.flatMap store.steps).foldl Step.on (store.entities (store.after calls)) := by
  have later : store.after (calls ++ more) = more.foldl store.call (store.after calls) := List.foldl_append
  rw [later, entities, index_foldl_call]
  exact ((coherent_after calls).foldl_apply _).2

/-- Ids stand in the order in which they are first mentioned. -/
theorem ids_after (calls : List store.Call) :
    ids (store.entities (store.after calls)) = (store.mentions calls).eraseDups := by
  have all := entities_after_append [] calls
  have none : store.entities (store.after []) = [] := congrArg Indexed.entries store.index_fresh
  rw [List.nil_append, none] at all
  rw [all, Step.ids_foldl_on]
  exact Distinct.addAll_eraseDups [] _

/-- What calls do to the entities that are there. -/
theorem map_reviseAll_isPrefix (calls more : List store.Call) :
    (store.entities (store.after calls)).map (Step.reviseAll (more.flatMap store.steps)) <+:
      store.entities (store.after (calls ++ more)) := by
  rw [entities_after_append]
  exact Step.map_reviseAll_isPrefix (coherent_after calls).nodup _

end Store

/-! ## Flowcharts -/

namespace Flowchart

theorem keepsId_join (node : Node) : Keyed.KeepsId (Node.join · node) := ⟨fun _ => rfl⟩

theorem keepsId_classes (name : String) :
    Keyed.KeepsId fun node : Node => { node with classes := Distinct.add node.classes name } :=
  ⟨fun _ => rfl⟩

/-- The steps of a call on the nodes. -/
def Call.steps : Call → List (Step Node)
  | .addNode node => [.add Node.join node (keepsId_join node)]
  | .ensureNode id => [.ensure { id, label := id }]
  | .addNodeClass id name | .assignClass id name =>
    [.change id (fun node => { node with classes := Distinct.add node.classes name }) (keepsId_classes name)]
  | _ => []

/-- Flowcharts with their nodes. The calls are those that do not clear the chart. -/
def store : Store where
  Model := Chart
  Call := { call : Call // call.clears = false }
  Entity := Node
  keyed := inferInstance
  fresh := {}
  call c call := c.call call
  index c := c.roster.index
  has := Chart.hasNode
  find? := Chart.node?
  steps call := call.1.steps
  index_fresh := rfl
  index_call := by
    rintro c ⟨call, keeps⟩
    cases call with
    | clear => cases keeps
    | ensureNode id => exact c.roster.index.ensure_eq_apply _
    | _ => rfl
  has_eq _ _ := rfl
  find?_eq _ _ := rfl

end Flowchart

/-! ## Class diagrams -/

namespace ClassDiagram

/-- A call that adds to a class diagram. `changeClass` is what is done to a class that is asked for. -/
inductive Call where
  | addClass (c : Class)
  | ensureClass (id : String)
  | changeClass (id : String) (change : Class → Class) (keeps : Keyed.KeepsId change)
  | addRelationship (r : Relationship)
  | addNamespace (name : String) (classes : List String)
  | addNote (n : Note)
  | addInteraction (i : Interaction)
  | assignStyleClass (id styleClass : String)
  | addStyle (id : String) (style : Style)

/-- The diagram after a call. -/
def Diagram.call (d : Diagram) : Call → Diagram
  | .addClass c => d.addClass c
  | .ensureClass id => d.ensureClass id
  | .changeClass id change keeps => d.changeClass id change keeps
  | .addRelationship r => d.addRelationship r
  | .addNamespace name classes => d.addNamespace name classes
  | .addNote n => d.addNote n
  | .addInteraction i => d.addInteraction i
  | .assignStyleClass id styleClass => d.assignStyleClass id styleClass
  | .addStyle id style => d.addStyle id style

/-- The steps of changing a class that is added before where there is none. -/
def changing (id : String) (change : Class → Class) (keeps : Keyed.KeepsId change) : List (Step Class) :=
  [.ensure { id := id }, .change id change keeps]

theorem keepsId_join (c : Class) : Keyed.KeepsId (Class.join · c) := ⟨fun _ => rfl⟩

theorem keepsId_inNamespace (name : String) :
    Keyed.KeepsId fun c : Class => { c with inNamespace := some name } :=
  ⟨fun _ => rfl⟩

theorem keepsId_styleClasses (styleClass : String) :
    Keyed.KeepsId fun c : Class => { c with styleClasses := c.styleClasses ++ [styleClass] } :=
  ⟨fun _ => rfl⟩

/-- The steps of a call on the classes. -/
def Call.steps : Call → List (Step Class)
  | .addClass c => [.add Class.join c (keepsId_join c)]
  | .ensureClass id => [.ensure { id := id }]
  | .changeClass id change keeps => changing id change keeps
  | .addNamespace name classes =>
    classes.flatMap fun id => changing id ({ · with inNamespace := some name }) (keepsId_inNamespace name)
  | .assignStyleClass id styleClass =>
    [.change id (fun c => { c with styleClasses := c.styleClasses ++ [styleClass] })
      (keepsId_styleClasses styleClass)]
  | _ => []

theorem index_changeClass (d : Diagram) (id : String) (change : Class → Class) (keeps : Keyed.KeepsId change) :
    (d.changeClass id change keeps).roster.index = (changing id change keeps).foldl Indexed.apply d.roster.index :=
  congrArg (Indexed.change · id change) (d.roster.index.ensure_eq_apply _)

theorem index_addNamespace (d : Diagram) (name : String) (classes : List String) :
    (d.addNamespace name classes).roster.index =
      (Call.steps (.addNamespace name classes)).foldl Indexed.apply d.roster.index := by
  rw [Call.steps]
  induction classes generalizing d with
  | nil => rfl
  | cons id classes ih =>
    rw [List.flatMap_cons, List.foldl_append, ← index_changeClass]
    exact ih (d.changeClass id ({ · with inNamespace := some name }) ⟨fun _ => rfl⟩)

/-- Class diagrams with their classes. -/
def store : Store where
  Model := Diagram
  Call := Call
  Entity := Class
  keyed := inferInstance
  fresh := {}
  call := Diagram.call
  index d := d.roster.index
  has := Diagram.hasClass
  find? := Diagram.class?
  steps := Call.steps
  index_fresh := rfl
  index_call d call := by
    cases call with
    | ensureClass id => exact d.roster.index.ensure_eq_apply _
    | changeClass id change keeps => exact index_changeClass d id change keeps
    | addNamespace name classes => exact index_addNamespace d name classes
    | _ => rfl
  has_eq _ _ := rfl
  find?_eq _ _ := rfl

end ClassDiagram

/-! ## State diagrams -/

namespace StateDiagram

/-- A call that adds to a state diagram. `changeState` is what is done to a state that is asked for. -/
inductive Call where
  | addState (s : State)
  | ensureState (id : String)
  | changeState (id : String) (change : State → State) (keeps : Keyed.KeepsId change)
  | addTransition (t : Transition)
  | addNote (n : Note)
  | defineClass (name : String) (style : Style)
  | assignClass (id name : String)

/-- The diagram after a call. -/
def Diagram.call (d : Diagram) : Call → Diagram
  | .addState s => d.addState s
  | .ensureState id => d.ensureState id
  | .changeState id change keeps => d.changeState id change keeps
  | .addTransition t => d.addTransition t
  | .addNote n => d.addNote n
  | .defineClass name style => d.defineClass name style
  | .assignClass id name => d.assignClass id name

theorem keepsId_join (s : State) : Keyed.KeepsId (State.join · s) := ⟨fun _ => rfl⟩

theorem keepsId_styleClasses (name : String) :
    Keyed.KeepsId fun s : State => { s with styleClasses := Distinct.add s.styleClasses name } :=
  ⟨fun _ => rfl⟩

/-- The steps of a call on the states. -/
def Call.steps : Call → List (Step State)
  | .addState s => [.add State.join s (keepsId_join s)]
  | .ensureState id => [.ensure { id := id }]
  | .changeState id change keeps => [.ensure { id := id }, .change id change keeps]
  | .assignClass id name =>
    [.change id (fun s => { s with styleClasses := Distinct.add s.styleClasses name }) (keepsId_styleClasses name)]
  | _ => []

/-- State diagrams with their states. -/
def store : Store where
  Model := Diagram
  Call := Call
  Entity := State
  keyed := inferInstance
  fresh := {}
  call := Diagram.call
  index d := d.roster.index
  has := Diagram.hasState
  find? := Diagram.state?
  steps := Call.steps
  index_fresh := rfl
  index_call d call := by
    cases call with
    | ensureState id => exact d.roster.index.ensure_eq_apply _
    | changeState id change => exact congrArg (Indexed.change · id change) (d.roster.index.ensure_eq_apply _)
    | _ => rfl
  has_eq _ _ := rfl
  find?_eq _ _ := rfl

end StateDiagram

/-! ## Er diagrams -/

namespace Er

/-- A call that adds to a schema. `changeEntity` is what is done to an entity that is asked for. -/
inductive Call where
  | addEntity (e : Entity)
  | ensureEntity (id : String)
  | changeEntity (id : String) (change : Entity → Entity) (keeps : Keyed.KeepsId change)
  | addRelationship (r : Relationship)

/-- The schema after a call. -/
def Schema.call (s : Schema) : Call → Schema
  | .addEntity e => s.addEntity e
  | .ensureEntity id => s.ensureEntity id
  | .changeEntity id change keeps => s.changeEntity id change keeps
  | .addRelationship r => s.addRelationship r

theorem keepsId_join (e : Entity) : Keyed.KeepsId (Entity.join · e) := ⟨fun _ => rfl⟩

/-- The steps of a call on the entities. -/
def Call.steps : Call → List (Step Entity)
  | .addEntity e => [.add Entity.join e (keepsId_join e)]
  | .ensureEntity id => [.ensure { id := id }]
  | .changeEntity id change keeps => [.ensure { id := id }, .change id change keeps]
  | .addRelationship _ => []

/-- Schemas with their entities. -/
def store : Store where
  Model := Schema
  Call := Call
  Entity := Entity
  keyed := inferInstance
  fresh := {}
  call := Schema.call
  index s := s.roster.index
  has := Schema.hasEntity
  find? := Schema.entity?
  steps := Call.steps
  index_fresh := rfl
  index_call s call := by
    cases call with
    | ensureEntity id => exact s.roster.index.ensure_eq_apply _
    | changeEntity id change => exact congrArg (Indexed.change · id change) (s.roster.index.ensure_eq_apply _)
    | _ => rfl
  has_eq _ _ := rfl
  find?_eq _ _ := rfl

end Er

/-! ## Sankey diagrams -/

namespace Sankey

/-- A call that adds to a network. -/
inductive Call where
  | addNode (name : String)
  | addLink (l : Link)

/-- The network after a call. -/
def Network.call (n : Network) : Call → Network
  | .addNode name => n.addNode name
  | .addLink l => n.addLink l

/-- The steps of a call on the nodes. -/
def Call.steps : Call → List (Step String)
  | .addNode name => [Step.ensure name]
  | .addLink _ => []

/-- Networks with their nodes, which are found by where they stand. -/
def store : Store where
  Model := Network
  Call := Call
  Entity := String
  keyed := inferInstance
  fresh := {}
  call := Network.call
  index n := n.roster.index
  has := Network.hasNode
  find? n name := (n.index? name).bind (n.nodes[·]?)
  steps := Call.steps
  index_fresh := rfl
  index_call n call := by
    cases call with
    | addLink => rfl
    | addNode name => exact n.roster.index.ensure_eq_apply name
  has_eq _ _ := rfl
  find?_eq _ _ := rfl

end Sankey

/-! ## All of them -/

/-- The kinds with models that find their entities by ids. -/
inductive IndexedKind where
  | flowchart
  | classDiagram
  | stateDiagram
  | er
  | sankey
deriving DecidableEq

/-- The models of a kind. -/
def IndexedKind.store : IndexedKind → Store
  | flowchart => Flowchart.store
  | classDiagram => ClassDiagram.store
  | stateDiagram => StateDiagram.store
  | er => Er.store
  | sankey => Sankey.store

/-- Whatever the calls on a new model, its index is one of its entities, whose ids are distinct and in the order in
which they are first mentioned. Further calls leave all ids where they are, and a call leaves every entity alone that
it is not about. -/
theorem index_of_calls (kind : IndexedKind) (calls : List kind.store.Call) :
    kind.store.Indexes (kind.store.after calls) ∧
      ids (kind.store.entities (kind.store.after calls)) = (kind.store.mentions calls).eraseDups ∧
      (∀ more, ids (kind.store.entities (kind.store.after calls)) <+:
        ids (kind.store.entities (kind.store.after (calls ++ more)))) ∧
      ∀ (call : kind.store.Call) (i : Nat) (entity : kind.store.Entity),
        (kind.store.entities (kind.store.after calls))[i]? = some entity →
        Keyed.id entity ∉ kind.store.touched call →
        (kind.store.entities (kind.store.after (calls ++ [call])))[i]? = some entity := by
  refine ⟨Store.indexes_after calls, Store.ids_after calls, fun more => ?_, fun call i entity h apart => ?_⟩
  · have kept := (Store.map_reviseAll_isPrefix calls more).map Keyed.id
    rw [List.map_map] at kept
    have same : Keyed.id ∘ Step.reviseAll (more.flatMap kind.store.steps) = Keyed.id :=
      funext fun old => Step.id_reviseAll _ old
    rwa [same] at kept
  · obtain ⟨new, hnew⟩ := Store.map_reviseAll_isPrefix calls [call]
    rw [List.flatMap_singleton] at hnew
    rw [← hnew, List.getElem?_append_left (by simpa using (List.getElem?_eq_some_iff.1 h).1), List.getElem?_map, h,
      Option.map_some, Step.reviseAll_of_not_mem apart]

end DiagramText
