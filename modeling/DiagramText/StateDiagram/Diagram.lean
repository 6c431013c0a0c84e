import DiagramText.Captions
import DiagramText.Direction
import DiagramText.Distinct
import DiagramText.Graph
import DiagramText.Indexed
import DiagramText.Issue
import DiagramText.Style

/-!
# State diagrams

States, transitions between them, and notes. Composite states hold further states, each of them in one
of the regions of its parent. A state that is given again gains the new descriptions and style classes
and takes the new label and kind where they say something; it stays where it was put first.
-/

namespace DiagramText.StateDiagram

/-- What a state is; the states where a run starts and ends and those where it branches and joins are
no states to stay in. -/
inductive StateKind where
  | normal | start | finish | choice | fork | join
  | composite (regions : Nat)
deriving DecidableEq, Inhabited

namespace StateKind

/-- The kind with a stereotype. -/
def ofStereotype? : String → Option StateKind
  | "choice" => some choice
  | "fork" => some fork
  | "join" => some join
  | _ => none

/-- Whether the state is none to stay in. -/
def isPseudo : StateKind → Bool
  | normal | composite _ => false
  | _ => true

/-- Whether the state may hold others. -/
def isComposite : StateKind → Bool
  | composite _ => true
  | _ => false

/-- The name of the kind. -/
def name : StateKind → String
  | normal => "normal"
  | start => "start"
  | finish => "end"
  | choice => "choice"
  | fork => "fork"
  | join => "join"
  | composite _ => "composite"

end StateKind

/-- A state. -/
structure State where
  id : String
  kind : StateKind := .normal
  label : Option String := none
  descriptions : List String := []
  parent : Option String := none
  region : Nat := 0
  styleClasses : List String := []
deriving DecidableEq, Inhabited

instance : Keyed State := ⟨State.id⟩

namespace State

/-- The text that is shown. -/
def displayLabel (s : State) : String := s.label.getD s.id

/-- The state with what another declaration of it adds. -/
def join (s other : State) : State :=
  { s with
    kind := if other.kind = .normal then s.kind else other.kind
    label := other.label.or s.label
    descriptions := s.descriptions ++ other.descriptions
    styleClasses := s.styleClasses ++ other.styleClasses }

end State

/-- A transition. -/
structure Transition where
  source : String
  target : String
  label : Option String := none
deriving DecidableEq, Inhabited

/-- The side of a state on which a note stands. -/
inductive NotePosition where
  | leftOf | rightOf
deriving DecidableEq, Inhabited

/-- A note on a state. -/
structure Note where
  state : String
  position : NotePosition
  text : String
deriving DecidableEq, Inhabited

/-- The id of the state where runs inside a composite state start or end; the outermost level counts
as a composite state of its own. -/
def terminalId (scope : Option String) (start : Bool) : String :=
  scope.getD "root" ++ "_" ++ if start then "start" else "end"

/-- A state diagram. The states are kept in a roster. -/
structure Diagram where
  captions : Captions := {}
  direction : Direction := .topDown
  roster : Roster State := ∅
  transitions : List Transition := []
  notes : List Note := []
  classes : Table Style := []
  classAssignments : List (String × String) := []
deriving DecidableEq, Inhabited

namespace Diagram

/-- The states. -/
def states (d : Diagram) : List State := d.roster.entries

/-- The diagram with one more state, or with what the state adds to the one of its id. -/
def addState (d : Diagram) (s : State) : Diagram := { d with roster := d.roster.add State.join s ⟨fun _ => rfl⟩ }

/-- The diagram with a state of this id. -/
def ensureState (d : Diagram) (id : String) : Diagram := { d with roster := d.roster.ensure { id := id } }

/-- The diagram with a state of this id changed; it is added before where there is none. -/
def changeState (d : Diagram) (id : String) (change : State → State)
    (keeps : Keyed.KeepsId change) : Diagram :=
  let d := d.ensureState id
  { d with roster := d.roster.change id change keeps }

/-- Whether there is a state with the id. -/
def hasState (d : Diagram) (id : String) : Bool := d.roster.has id

/-- The state with an id. -/
def state? (d : Diagram) (id : String) : Option State := d.roster.find? id

/-- The place of the state with an id. -/
def stateIndex? (d : Diagram) (id : String) : Option Nat := d.roster.place? id

theorem hasState_eq (d : Diagram) (id : String) : d.hasState id = Keyed.has d.states id := d.roster.has_eq id

theorem state?_eq (d : Diagram) (id : String) : d.state? id = Keyed.find? d.states id := d.roster.find?_eq id

theorem stateIndex?_eq (d : Diagram) (id : String) : d.stateIndex? id = Keyed.index? d.states id :=
  d.roster.place?_eq id

theorem states_addState (d : Diagram) (s : State) : (d.addState s).states = Keyed.add State.join d.states s := by
  simp only [states, addState, Roster.entries_add]

theorem states_ensureState (d : Diagram) (id : String) :
    (d.ensureState id).states = Keyed.ensure d.states { id := id } :=
  d.roster.entries_ensure _

theorem states_changeState (d : Diagram) (id : String) (change : State → State) (keeps : Keyed.KeepsId change) :
    (d.changeState id change keeps).states = Keyed.update (d.ensureState id).states id change := by
  simp only [states, changeState, Roster.entries_change]

/-- The states directly inside a composite state. -/
def children (d : Diagram) (parent : String) : List State :=
  d.states.filter (·.parent == some parent)

/-- The diagram with one more transition. -/
def addTransition (d : Diagram) (t : Transition) : Diagram :=
  { d with transitions := d.transitions ++ [t] }

/-- The transitions that leave a state. -/
def transitionsFrom (d : Diagram) (id : String) : List Transition :=
  d.transitions.filter (·.source == id)

/-- The diagram with one more note. -/
def addNote (d : Diagram) (n : Note) : Diagram := { d with notes := d.notes ++ [n] }

/-- The style of a style class. -/
def classStyle? (d : Diagram) (name : String) : Option Style := Table.get? d.classes name

/-- The diagram with a style laid over the one that a style class has. -/
def defineClass (d : Diagram) (name : String) (style : Style) : Diagram :=
  { d with classes := d.classes.insert name (((d.classStyle? name).getD {}).merge style) }

/-- The diagram in which a state, if it is there, has a style class. -/
def assignClass (d : Diagram) (id name : String) : Diagram :=
  { d with
    roster :=
      d.roster.change id (fun s => { s with styleClasses := Distinct.add s.styleClasses name }) ⟨fun _ => rfl⟩
    classAssignments := d.classAssignments ++ [(id, name)] }

theorem states_assignClass (d : Diagram) (id name : String) :
    (d.assignClass id name).states =
      Keyed.update d.states id fun s => { s with styleClasses := Distinct.add s.styleClasses name } := by
  simp only [states, assignClass, Roster.entries_change]

/-- The number of states. -/
def entityCount (d : Diagram) : Nat := d.states.length

/-- Issues for those of the ids that no state has. -/
def unknown (d : Diagram) (context : String) (ids : List String) : List Issue :=
  (ids.filter (!d.hasState ·)).map (Issue.danglingReference context)

/-- An issue for a state if it is of the wrong kind. -/
def wrongEnd (d : Diagram) (id : String) (kind : StateKind) (reason : String) : List Issue :=
  if (d.state? id).map State.kind = some kind then [.invalidEntity id reason] else []

/-- What is wrong with a transition. -/
def transitionIssues (d : Diagram) (t : Transition) : List Issue :=
  d.unknown "transition" [t.source, t.target] ++
    d.wrongEnd t.target .start "start state has an incoming transition" ++
    d.wrongEnd t.source .finish "end state has an outgoing transition"

/-- Whether a state holds others. -/
def isComposite (d : Diagram) (id : String) : Bool := (d.state? id).any (·.kind.isComposite)

/-- What is wrong with the diagram. -/
def issues (d : Diagram) : List Issue :=
  Issue.ofCount d.states.length ++
    d.transitions.flatMap d.transitionIssues ++
    ((d.states.filterMap State.parent).filter (!d.isComposite ·)).map
      (.danglingReference "composite state") ++
    d.unknown "note" (d.notes.map Note.state) ++
    d.unknown "class directive" (d.classAssignments.map (·.1))

/-- The diagram as a graph for layout. -/
def toGraph (d : Diagram) : Graph where
  nodes := d.states.map fun s =>
    { id := s.id
      label := s.displayLabel
      metadata := ("kind", s.kind.name) :: (s.parent.map fun p => ("parent", p)).toList }
  edges := d.transitions.map fun t =>
    { source := t.source, target := t.target, labels := Graph.labels t.label }
  options := Graph.layout "layered" d.direction.word

end Diagram

instance : Written StateKind where
  write kind :=
    .object (("kind", .text kind.name) ::
      match kind with
      | .composite regions => [("regions", write regions)]
      | _ => [])

instance : Written State where
  write s :=
    .object [("id", write s.id), ("kind", write s.kind), ("label", write s.label),
      ("descriptions", write s.descriptions), ("parent", write s.parent),
      ("region", write s.region), ("css_classes", write s.styleClasses)]

instance : Written Transition where
  write t := .object [("from", write t.source), ("to", write t.target), ("label", write t.label)]

instance : Written NotePosition where
  write
    | .leftOf => .text "LeftOf"
    | .rightOf => .text "RightOf"

instance : Written Note where
  write n :=
    .object [("state", write n.state), ("position", write n.position), ("text", write n.text)]

instance : Written Diagram where
  write d :=
    .object (d.captions.accessibleFields ++
      [("direction", write d.direction), ("states", write d.states),
        ("transitions", write d.transitions), ("notes", write d.notes),
        ("class_defs", Graph.writeTable d.classes),
        ("class_assignments", write d.classAssignments)])

end DiagramText.StateDiagram
