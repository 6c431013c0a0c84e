import DiagramText.Text.Blank
import DiagramText.Value

/-!
# Kinds of diagrams

The twenty kinds of diagrams, each with a name and the keywords that its documents may begin with.
Their order is that in which a document is tested for them.
-/

namespace DiagramText

/-- A word that none of the words of a category matches. -/
structure UnknownWord where
  category : String
  word : String
deriving DecidableEq, Inhabited

/-- The complaint about the word. -/
def UnknownWord.message (u : UnknownWord) : String := "Unknown " ++ u.category ++ ": " ++ u.word

/-- A kind of diagram. -/
inductive Kind where
  | flowchart | sequence | classDiagram | state | er | journey | gitGraph | sankey | pie | gantt
  | timeline | mindmap | quadrantChart | requirement | packet | kanban | xyChart | architecture
  | radar | info
deriving DecidableEq, Inhabited

namespace Kind

/-- Kinds are ordered as they are declared. -/
instance : LT Kind := ⟨fun kind kind' => kind.ctorIdx < kind'.ctorIdx⟩

instance (kind kind' : Kind) : Decidable (kind < kind') := Nat.decLt _ _

theorem ctorIdx_inj {kind kind' : Kind} (h : kind.ctorIdx = kind'.ctorIdx) : kind = kind' := by
  cases kind <;> cases kind' <;> first | rfl | cases h

theorem lt_of_not_lt {kind kind' : Kind} (h : ¬ kind < kind') (hne : kind ≠ kind') : kind' < kind :=
  Nat.lt_of_le_of_ne (Nat.le_of_not_lt h) fun e => hne (ctorIdx_inj e.symm)

/-- All kinds in their order. -/
def all : List Kind :=
  [flowchart, sequence, classDiagram, state, er, journey, gitGraph, sankey, pie, gantt, timeline,
    mindmap, quadrantChart, requirement, packet, kanban, xyChart, architecture, radar, info]

/-- The name of the kind in messages. -/
def id : Kind → String
  | flowchart => "flowchart"
  | sequence => "sequence"
  | classDiagram => "class"
  | state => "state"
  | er => "er"
  | journey => "journey"
  | gitGraph => "gitGraph"
  | sankey => "sankey"
  | pie => "pie"
  | gantt => "gantt"
  | timeline => "timeline"
  | mindmap => "mindmap"
  | quadrantChart => "quadrantChart"
  | requirement => "requirement"
  | packet => "packet"
  | kanban => "kanban"
  | xyChart => "xychart"
  | architecture => "architecture"
  | radar => "radar"
  | info => "info"

/-- The name of the kind in written models. -/
def tag : Kind → String
  | xyChart => "xyChart"
  | kind => kind.id

instance : Written Kind := ⟨fun kind => .text kind.tag⟩

/-- The words that documents of the kind begin with. -/
def keywords : Kind → List String
  | flowchart => ["flowchart", "graph"]
  | sequence => ["sequenceDiagram"]
  | classDiagram => ["classDiagram-v2", "classDiagram"]
  | state => ["stateDiagram-v2", "stateDiagram"]
  | er => ["erDiagram"]
  | journey => ["journey"]
  | gitGraph => ["gitGraph"]
  | sankey => ["sankey-beta", "sankey"]
  | pie => ["pie"]
  | gantt => ["gantt"]
  | timeline => ["timeline"]
  | mindmap => ["mindmap"]
  | quadrantChart => ["quadrantChart"]
  | requirement => ["requirementDiagram"]
  | packet => ["packet-beta", "packet"]
  | kanban => ["kanban"]
  | xyChart => ["xychart-beta", "xychart"]
  | architecture => ["architecture-beta", "architecture"]
  | radar => ["radar-beta", "radar"]
  | info => ["info"]

/-- Whether the keywords may be written in any case of letters. -/
def anyCase : Kind → Bool
  | flowchart | info => true
  | _ => false

/-- The kind that a word names: its name or one of its keywords, in any case of letters. -/
def ofWord (word : String) : Except UnknownWord Kind :=
  match all.find? fun kind =>
    sameAnyCase kind.id word || kind.keywords.any (sameAnyCase · word) with
  | some kind => .ok kind
  | none => .error ⟨"diagram type", word⟩

/-- Every kind is in the list of all kinds. -/
theorem mem_all (kind : Kind) : kind ∈ all := by
  cases kind <;> decide

/-- The list of all kinds is in their order. -/
theorem all_ordered : all.Pairwise (· < ·) := by decide

end Kind

end DiagramText
