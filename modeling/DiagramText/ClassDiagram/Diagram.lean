import DiagramText.Captions
import DiagramText.ClassDiagram.Member
import DiagramText.Direction
import DiagramText.Graph
import DiagramText.Indexed
import DiagramText.Interaction
import DiagramText.Issue
import DiagramText.Style

/-!
# Class diagrams

Classes with their members, relationships between classes, namespaces, notes, and what a click on a
class does. A class that is given again gains the new members, annotations and style classes.
-/

namespace DiagramText.ClassDiagram

/-- A class. -/
structure Class where
  id : String
  label : Option String := none
  generic : Option String := none
  annotations : List String := []
  attributes : List Member := []
  methods : List Member := []
  styleClasses : List String := []
  inNamespace : Option String := none
deriving DecidableEq, Inhabited

instance : Keyed Class := ⟨Class.id⟩

namespace Class

/-- The name that is shown. -/
def displayName (c : Class) : String :=
  match c.label, c.generic with
  | some label, _ => label
  | none, some generic => c.id ++ "<" ++ generic ++ ">"
  | none, none => c.id

/-- The class with one more member. -/
def addMember (c : Class) (m : Member) : Class :=
  if m.isMethod then { c with methods := c.methods ++ [m] }
  else { c with attributes := c.attributes ++ [m] }

@[simp] theorem id_addMember (c : Class) (m : Member) : (c.addMember m).id = c.id := by
  rw [addMember]
  split <;> rfl

/-- The class with what another declaration of it adds. -/
def join (c other : Class) : Class :=
  { c with
    label := other.label.or c.label
    generic := other.generic.or c.generic
    annotations := c.annotations ++ other.annotations
    attributes := c.attributes ++ other.attributes
    methods := c.methods ++ other.methods
    styleClasses := c.styleClasses ++ other.styleClasses
    inNamespace := other.inNamespace.or c.inNamespace }

end Class

/-- How two classes are related. -/
inductive RelationshipKind where
  | inheritance | composition | aggregation | association | dependency | realization | lollipop
  | link | dashedLink
deriving DecidableEq, Inhabited

namespace RelationshipKind

/-- The kind of a line with this marker at its end, if it has one. -/
def ofEnd (marker : Option String) (dashed : Bool) : RelationshipKind :=
  match marker with
  | some "<|" | some "|>" => if dashed then realization else inheritance
  | some "*" => composition
  | some "o" => aggregation
  | some "()" => lollipop
  | some _ => if dashed then dependency else association
  | none => if dashed then dashedLink else link

/-- Whether the source is a kind of the target. -/
def isGeneralization : RelationshipKind → Bool
  | inheritance | realization => true
  | _ => false

/-- The name of the kind in a graph for layout. -/
def name : RelationshipKind → String
  | inheritance => "inheritance"
  | composition => "composition"
  | aggregation => "aggregation"
  | association => "association"
  | dependency => "dependency"
  | realization => "realization"
  | lollipop => "lollipop"
  | link => "link"
  | dashedLink => "dashedlink"

end RelationshipKind

/-- A relationship between two classes. -/
structure Relationship where
  source : String
  target : String
  kind : RelationshipKind
  bidirectional : Bool := false
  label : Option String := none
  sourceCardinality : Option String := none
  targetCardinality : Option String := none
deriving DecidableEq, Inhabited

/-- A namespace with the ids of its classes. -/
structure Namespace where
  name : String
  classes : List String
deriving DecidableEq, Inhabited

instance : Keyed Namespace := ⟨Namespace.name⟩

/-- A note, which may belong to a class. -/
structure Note where
  onClass : Option String
  text : String
deriving DecidableEq, Inhabited

/-- A class diagram. The classes are kept in a roster. -/
structure Diagram where
  captions : Captions := {}
  direction : Direction := .topDown
  roster : Roster Class := ∅
  relationships : List Relationship := []
  namespaces : List Namespace := []
  notes : List Note := []
  interactions : List Interaction := []
  styleClasses : List (String × String) := []
  styles : List (String × Style) := []
deriving DecidableEq, Inhabited

namespace Diagram

/-- The classes. -/
def classes (d : Diagram) : List Class := d.roster.entries

/-- The diagram with one more class, or with what the class adds to the one of its id. -/
def addClass (d : Diagram) (c : Class) : Diagram := { d with roster := d.roster.add Class.join c ⟨fun _ => rfl⟩ }

/-- The diagram with a class of this id. -/
def ensureClass (d : Diagram) (id : String) : Diagram := { d with roster := d.roster.ensure { id := id } }

/-- The diagram with a class of this id changed; it is added before where there is none. -/
def changeClass (d : Diagram) (id : String) (change : Class → Class)
    (keeps : Keyed.KeepsId change) : Diagram :=
  let d := d.ensureClass id
  { d with roster := d.roster.change id change keeps }

/-- Whether there is a class with the id. -/
def hasClass (d : Diagram) (id : String) : Bool := d.roster.has id

/-- The class with an id. -/
def class? (d : Diagram) (id : String) : Option Class := d.roster.find? id

theorem hasClass_eq (d : Diagram) (id : String) : d.hasClass id = Keyed.has d.classes id := d.roster.has_eq id

theorem class?_eq (d : Diagram) (id : String) : d.class? id = Keyed.find? d.classes id := d.roster.find?_eq id

theorem classes_addClass (d : Diagram) (c : Class) : (d.addClass c).classes = Keyed.add Class.join d.classes c := by
  simp only [classes, addClass, Roster.entries_add]

theorem classes_ensureClass (d : Diagram) (id : String) :
    (d.ensureClass id).classes = Keyed.ensure d.classes { id := id } :=
  d.roster.entries_ensure _

theorem classes_changeClass (d : Diagram) (id : String) (change : Class → Class) (keeps : Keyed.KeepsId change) :
    (d.changeClass id change keeps).classes = Keyed.update (d.ensureClass id).classes id change := by
  simp only [classes, changeClass, Roster.entries_change]

/-- The diagram with one more relationship. -/
def addRelationship (d : Diagram) (r : Relationship) : Diagram :=
  { d with relationships := d.relationships ++ [r] }

/-- The relationships that start at a class. -/
def relationshipsFrom (d : Diagram) (id : String) : List Relationship :=
  d.relationships.filter (·.source == id)

/-- The classes that a class inherits from or realises. -/
def parents (d : Diagram) (id : String) : List String :=
  ((d.relationshipsFrom id).filter (·.kind.isGeneralization)).map Relationship.target

/-- The diagram with classes put into a namespace. -/
def addNamespace (d : Diagram) (name : String) (classes : List String) : Diagram :=
  let d := classes.foldl
    (fun d id => d.changeClass id ({ · with inNamespace := some name }) ⟨fun _ => rfl⟩) d
  { d with
    namespaces :=
      Keyed.add (fun a b => { a with classes := a.classes ++ b.classes }) d.namespaces
        ⟨name, classes⟩ }

/-- The diagram with one more note. -/
def addNote (d : Diagram) (n : Note) : Diagram := { d with notes := d.notes ++ [n] }

/-- The diagram with one more interaction. -/
def addInteraction (d : Diagram) (i : Interaction) : Diagram :=
  { d with interactions := d.interactions ++ [i] }

/-- The diagram in which a class, if it is there, has one more style class. -/
def assignStyleClass (d : Diagram) (id styleClass : String) : Diagram :=
  { d with
    roster :=
      d.roster.change id (fun c => { c with styleClasses := c.styleClasses ++ [styleClass] }) ⟨fun _ => rfl⟩
    styleClasses := d.styleClasses ++ [(id, styleClass)] }

theorem classes_assignStyleClass (d : Diagram) (id styleClass : String) :
    (d.assignStyleClass id styleClass).classes =
      Keyed.update d.classes id fun c => { c with styleClasses := c.styleClasses ++ [styleClass] } := by
  simp only [classes, assignStyleClass, Roster.entries_change]

/-- The diagram with a style for a class. -/
def addStyle (d : Diagram) (id : String) (style : Style) : Diagram :=
  { d with styles := d.styles ++ [(id, style)] }

/-- The styles of a class laid over each other. -/
def classStyle (d : Diagram) (id : String) : Style :=
  ((d.styles.filter (·.1 == id)).map (·.2)).foldl Style.merge {}

/-- The number of classes. -/
def entityCount (d : Diagram) : Nat := d.classes.length

/-- Issues for those of the ids that no class has. -/
def unknown (d : Diagram) (context : String) (ids : List String) : List Issue :=
  (ids.filter (!d.hasClass ·)).map (Issue.danglingReference context)

/-- What is wrong with the diagram. -/
def issues (d : Diagram) : List Issue :=
  Issue.ofCount d.classes.length ++
    d.unknown "relationship" (d.relationships.flatMap fun r => [r.source, r.target]) ++
    d.unknown "note" (d.notes.filterMap Note.onClass) ++
    d.unknown "click" (d.interactions.map Interaction.target) ++
    d.unknown "cssClass" (d.styleClasses.map (·.1)) ++
    d.unknown "style directive" (d.styles.map (·.1))

/-- The diagram as a graph for layout. -/
def toGraph (d : Diagram) : Graph where
  nodes := d.classes.map fun c =>
    { id := c.id
      label := c.displayName
      metadata :=
        [("attributes", toString c.attributes.length), ("methods", toString c.methods.length)] ++
          (c.annotations.head?.map fun a => ("annotation", a)).toList ++
          (c.inNamespace.map fun n => ("namespace", n)).toList }
  edges := d.relationships.map fun r =>
    { source := r.source
      target := r.target
      labels := Graph.labels r.label
      metadata := [("kind", r.kind.name)] }
  options := Graph.layout "layered" d.direction.word

end Diagram

instance : Written Class where
  write c :=
    .object [("id", write c.id), ("label", write c.label), ("generic", write c.generic),
      ("annotations", write c.annotations), ("attributes", write c.attributes),
      ("methods", write c.methods), ("css_classes", write c.styleClasses),
      ("namespace", write c.inNamespace)]

instance : Written RelationshipKind where
  write
    | .inheritance => .text "Inheritance"
    | .composition => .text "Composition"
    | .aggregation => .text "Aggregation"
    | .association => .text "Association"
    | .dependency => .text "Dependency"
    | .realization => .text "Realization"
    | .lollipop => .text "Lollipop"
    | .link => .text "Link"
    | .dashedLink => .text "DashedLink"

instance : Written Relationship where
  write r :=
    .object [("from", write r.source), ("to", write r.target), ("kind", write r.kind),
      ("bidirectional", write r.bidirectional), ("label", write r.label),
      ("from_cardinality", write r.sourceCardinality),
      ("to_cardinality", write r.targetCardinality)]

instance : Written Namespace where
  write n := .object [("name", write n.name), ("classes", write n.classes)]

instance : Written Note where
  write n := .object [("class", write n.onClass), ("text", write n.text)]

instance : Written Diagram where
  write d :=
    .object (d.captions.fields ++
      [("direction", write d.direction), ("classes", write d.classes),
        ("relationships", write d.relationships), ("namespaces", write d.namespaces),
        ("notes", write d.notes),
        ("interactions", write (d.interactions.map (·.writeOn "class"))),
        ("css_assignments", write d.styleClasses), ("styles", write d.styles)])

end DiagramText.ClassDiagram
