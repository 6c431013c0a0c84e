import DiagramText.Captions
import DiagramText.Direction
import DiagramText.Graph
import DiagramText.Indexed
import DiagramText.Issue

/-!
# Entity-relationship schemas

Entities with attributes, and relationships between entities, which tell for both ends how many
entities may take part. An entity that is given again gains the new attributes and classes.
-/

namespace DiagramText.Er

/-- How many entities take part in a relationship. -/
inductive Cardinality where
  | zeroOrOne | exactlyOne | zeroOrMore | oneOrMore
deriving DecidableEq, Inhabited

namespace Cardinality

/-- The cardinality with a marker to the left of the line. -/
def ofLeft? : String → Option Cardinality
  | "|o" => some zeroOrOne
  | "||" => some exactlyOne
  | "\x7do" => some zeroOrMore
  | "\x7d|" => some oneOrMore
  | _ => none

/-- The cardinality with a marker to the right of the line. -/
def ofRight? : String → Option Cardinality
  | "o|" => some zeroOrOne
  | "||" => some exactlyOne
  | "o\x7b" => some zeroOrMore
  | "|\x7b" => some oneOrMore
  | _ => none

/-- Whether no entity need take part. -/
def isOptional : Cardinality → Bool
  | zeroOrOne | zeroOrMore => true
  | _ => false

/-- Whether several entities may take part. -/
def isMany : Cardinality → Bool
  | zeroOrMore | oneOrMore => true
  | _ => false

/-- The name of the cardinality. -/
def name : Cardinality → String
  | zeroOrOne => "zero_or_one"
  | exactlyOne => "exactly_one"
  | zeroOrMore => "zero_or_more"
  | oneOrMore => "one_or_more"

end Cardinality

/-- A key that an attribute belongs to. -/
inductive Key where
  | primary | foreign | unique
deriving DecidableEq, Inhabited

/-- The key with an abbreviation. -/
def Key.ofWord? : String → Option Key
  | "PK" => some primary
  | "FK" => some foreign
  | "UK" => some unique
  | _ => none

/-- An attribute of an entity. -/
structure Attribute where
  type : String
  name : String
  keys : List Key := []
  comment : Option String := none
deriving DecidableEq, Inhabited

/-- Whether the attribute belongs to the primary key. -/
def Attribute.isPrimaryKey (a : Attribute) : Bool := a.keys.contains .primary

/-- An entity. -/
structure Entity where
  id : String
  label : Option String := none
  attributes : List Attribute := []
  classes : List String := []
deriving DecidableEq, Inhabited

instance : Keyed Entity := ⟨Entity.id⟩

namespace Entity

/-- The name that is shown. -/
def displayName (e : Entity) : String := e.label.getD e.id

/-- The first attribute of a name. -/
def attribute? (e : Entity) (name : String) : Option Attribute :=
  e.attributes.find? (·.name == name)

/-- The entity with what another declaration of it adds. -/
def join (e other : Entity) : Entity :=
  { e with
    label := other.label.or e.label
    attributes := e.attributes ++ other.attributes
    classes := e.classes ++ other.classes }

/-- The entity with one more key on its first attribute of a name; none where there is none. -/
def addKey? (e : Entity) (name : String) (key : Key) : Option Entity :=
  (e.attributes.findIdx? (·.name == name)).map fun i =>
    { e with attributes := e.attributes.modify i fun a => { a with keys := a.keys ++ [key] } }

theorem id_addKey? (e : Entity) (name : String) (key : Key) : ((e.addKey? name key).getD e).id = e.id := by
  rw [addKey?]
  cases e.attributes.findIdx? (·.name == name) <;> rfl

end Entity

/-- A relationship. -/
structure Relationship where
  source : String
  target : String
  sourceCardinality : Cardinality
  targetCardinality : Cardinality
  identifying : Bool
  label : String
deriving DecidableEq, Inhabited

/-- A schema. The entities are kept in a roster. -/
structure Schema where
  captions : Captions := {}
  direction : Direction := .topDown
  roster : Roster Entity := ∅
  relationships : List Relationship := []
deriving DecidableEq, Inhabited

namespace Schema

/-- The entities. -/
def entities (s : Schema) : List Entity := s.roster.entries

/-- The schema with one more entity, or with what the entity adds to the one of its id. -/
def addEntity (s : Schema) (e : Entity) : Schema := { s with roster := s.roster.add Entity.join e ⟨fun _ => rfl⟩ }

/-- The schema with an entity of this id. -/
def ensureEntity (s : Schema) (id : String) : Schema := { s with roster := s.roster.ensure { id := id } }

/-- The schema with an entity of this id changed; it is added before where there is none. -/
def changeEntity (s : Schema) (id : String) (change : Entity → Entity)
    (keeps : Keyed.KeepsId change) : Schema :=
  let s := s.ensureEntity id
  { s with roster := s.roster.change id change keeps }

/-- The schema with one more key on the first attribute of a name, if the entity has one. -/
def addKey (s : Schema) (id name : String) (key : Key) : Schema :=
  s.changeEntity id (fun e => (e.addKey? name key).getD e) ⟨fun e => e.id_addKey? name key⟩

/-- The entity with an id. -/
def entity? (s : Schema) (id : String) : Option Entity := s.roster.find? id

/-- Whether there is an entity with the id. -/
def hasEntity (s : Schema) (id : String) : Bool := s.roster.has id

theorem hasEntity_eq (s : Schema) (id : String) : s.hasEntity id = Keyed.has s.entities id := s.roster.has_eq id

theorem entity?_eq (s : Schema) (id : String) : s.entity? id = Keyed.find? s.entities id := s.roster.find?_eq id

theorem entities_addEntity (s : Schema) (e : Entity) :
    (s.addEntity e).entities = Keyed.add Entity.join s.entities e := by
  simp only [entities, addEntity, Roster.entries_add]

theorem entities_ensureEntity (s : Schema) (id : String) :
    (s.ensureEntity id).entities = Keyed.ensure s.entities { id := id } :=
  s.roster.entries_ensure _

/-- The schema with one more relationship. -/
def addRelationship (s : Schema) (r : Relationship) : Schema :=
  { s with relationships := s.relationships ++ [r] }

/-- The number of entities. -/
def entityCount (s : Schema) : Nat := s.entities.length

/-- An issue for every attribute whose name occurs earlier in the list. -/
def attributeIssues (id : String) (seen : List String) : List Attribute → List Issue
  | [] => []
  | a :: rest =>
    (if seen.contains a.name then
      [.invalidEntity id ("attribute '" ++ a.name ++ "' is declared more than once")]
    else []) ++ attributeIssues id (a.name :: seen) rest

/-- What is wrong with the schema. -/
def issues (s : Schema) : List Issue :=
  Issue.ofCount s.entities.length ++
    (s.entities.flatMap fun e => attributeIssues e.id [] e.attributes) ++
    s.relationships.flatMap fun r =>
      ([r.source, r.target].filter (!s.hasEntity ·)).map (Issue.danglingReference "relationship")

/-- The schema as a graph for layout. -/
def toGraph (s : Schema) : Graph where
  nodes := s.entities.map fun e =>
    { id := e.id
      label := e.displayName
      metadata := [("attributes", toString e.attributes.length)] }
  edges := s.relationships.map fun r =>
    { source := r.source
      target := r.target
      labels := Graph.labels (some r.label)
      metadata :=
        [("from_cardinality", r.sourceCardinality.name),
          ("to_cardinality", r.targetCardinality.name),
          ("identifying", if r.identifying then "true" else "false")] }
  options := Graph.layout "layered" s.direction.word

end Schema

instance : Written Cardinality := ⟨fun c => .text c.name⟩

instance : Written Key where
  write
    | .primary => .text "Primary"
    | .foreign => .text "Foreign"
    | .unique => .text "Unique"

instance : Written Attribute where
  write a :=
    .object [("attribute_type", write a.type), ("name", write a.name), ("keys", write a.keys),
      ("comment", write a.comment)]

instance : Written Entity where
  write e :=
    .object [("id", write e.id), ("alias", write e.label), ("attributes", write e.attributes),
      ("css_classes", write e.classes)]

instance : Written Relationship where
  write r :=
    .object [("from", write r.source), ("to", write r.target),
      ("from_cardinality", write r.sourceCardinality),
      ("to_cardinality", write r.targetCardinality), ("identifying", write r.identifying),
      ("label", write r.label)]

instance : Written Schema where
  write s :=
    .object (s.captions.fields ++
      [("direction", write s.direction), ("entities", write s.entities),
        ("relationships", write s.relationships)])

end DiagramText.Er
