import DiagramText.Captions
import DiagramText.Issue
import DiagramText.Keyed

/-!
# Sequence diagrams

Participants and a list of events between them: messages, activations, notes, and the starts,
branches and ends of blocks. An event that belongs to a block, or is one of its marks, carries the
number of the blocks around it. While numbering is on, messages are numbered as they are added, by words of
32 bits: behind the last of these the numbers start again at zero.
-/

namespace DiagramText.Sequence

/-- How the line of a message is drawn. -/
inductive Line where
  | solid | dotted
deriving DecidableEq, Inhabited

/-- How the end of a message is drawn. -/
inductive Head where
  | arrow | unfilled | cross | both | plain
deriving DecidableEq, Inhabited

/-- How a message is drawn. -/
structure Arrow where
  line : Line := .solid
  head : Head := .arrow
deriving DecidableEq, Inhabited

namespace Arrow

/-- The head that follows the line of an arrow. -/
def head? : List Char → Option Head
  | ['>', '>'] => some .arrow
  | ['>'] => some .plain
  | ['x'] => some .cross
  | [')'] => some .unfilled
  | _ => none

/-- The arrow that a token draws. One with heads at both ends may have a line of any length, which is
dotted from two hyphens on. -/
def ofToken? (token : String) : Option Arrow :=
  match token.toList with
  | '<' :: '<' :: rest =>
    let line := if ['-', '-'].isPrefixOf rest then .dotted else .solid
    if rest.dropWhile (· == '-') = ['>', '>'] then some ⟨line, .both⟩ else none
  | '-' :: '-' :: rest => (head? rest).map (⟨.dotted, ·⟩)
  | '-' :: rest => (head? rest).map (⟨.solid, ·⟩)
  | _ => none

end Arrow

/-- How a participant is drawn. -/
inductive Role where
  | participant | actor
deriving DecidableEq, Inhabited

/-- A participant. -/
structure Participant where
  id : String
  label : String
  role : Role := .participant
deriving DecidableEq, Inhabited

instance : Keyed Participant := ⟨Participant.id⟩

/-- A message. -/
structure Message where
  source : String
  target : String
  label : String
  arrow : Arrow := {}
  depth : Nat := 0
  number : Option UInt32 := none
deriving DecidableEq, Inhabited

/-- What a block, or a branch of one, is about. -/
inductive BlockKind where
  | loop | alt | else | opt | par | and | critical | option | break | rect
deriving DecidableEq, Inhabited

/-- The kind of block with a keyword. -/
def BlockKind.ofWord? : String → Option BlockKind
  | "loop" => some loop
  | "alt" => some alt
  | "else" => some .else
  | "opt" => some opt
  | "par" => some par
  | "and" => some .and
  | "critical" => some critical
  | "option" => some option
  | "break" => some .break
  | "rect" => some rect
  | _ => none

/-- Where a note stands. -/
inductive Placement where
  | leftOf | rightOf | over
deriving DecidableEq, Inhabited

/-- A note next to participants. -/
structure Note where
  placement : Placement
  participants : List String
  text : String
deriving DecidableEq, Inhabited

/-- An event. -/
inductive Event where
  | message (m : Message)
  | activate (id : String)
  | deactivate (id : String)
  | note (n : Note)
  | blockStart (kind : BlockKind) (label : String) (depth : Nat)
  | blockBranch (kind : BlockKind) (label : String) (depth : Nat)
  | blockEnd (depth : Nat)
deriving DecidableEq, Inhabited

/-- How messages are numbered. -/
structure Numbering where
  start : UInt32 := 1
  step : UInt32 := 1
deriving DecidableEq, Inhabited

/-- A sequence diagram; `nextNumber` is the number of the next message if numbering is on. -/
structure Diagram where
  captions : Captions := {}
  participants : List Participant := []
  events : List Event := []
  numbering : Option Numbering := none
  nextNumber : UInt32 := 0
deriving DecidableEq, Inhabited

namespace Diagram

/-- The diagram with a participant, in place of the one of its id if there is one. -/
def addParticipant (d : Diagram) (p : Participant) : Diagram :=
  { d with participants := Keyed.add (fun _ new => new) d.participants p }

/-- The diagram with a participant of this id. -/
def ensureParticipant (d : Diagram) (id : String) : Diagram :=
  { d with participants := Keyed.ensure d.participants { id, label := id } }

/-- Whether there is a participant with the id. -/
def hasParticipant (d : Diagram) (id : String) : Bool := Keyed.has d.participants id

/-- The place of the participant with an id. -/
def participantIndex? (d : Diagram) (id : String) : Option Nat := Keyed.index? d.participants id

/-- The diagram with one more event. -/
def addEvent (d : Diagram) (e : Event) : Diagram := { d with events := d.events ++ [e] }

/-- The diagram with a message, which declares its ends and gets a number if numbering is on. -/
def addMessage (d : Diagram) (m : Message) : Diagram :=
  let d := (d.ensureParticipant m.source).ensureParticipant m.target
  match d.numbering with
  | none => d.addEvent (.message m)
  | some numbering =>
    { d.addEvent (.message { m with number := some d.nextNumber }) with
      nextNumber := d.nextNumber + numbering.step }

/-- The diagram with numbering turned on or off. -/
def setNumbering (d : Diagram) (numbering : Option Numbering) : Diagram :=
  { d with numbering, nextNumber := (numbering.map Numbering.start).getD d.nextNumber }

/-- The messages. -/
def messages (d : Diagram) : List Message :=
  d.events.filterMap fun
    | .message m => some m
    | _ => none

/-- The notes. -/
def notes (d : Diagram) : List Note :=
  d.events.filterMap fun
    | .note n => some n
    | _ => none

/-- The messages that a participant sends. -/
def messagesFrom (d : Diagram) (id : String) : List Message :=
  d.messages.filter (·.source == id)

/-- The number of participants. -/
def entityCount (d : Diagram) : Nat := d.participants.length

/-- Issues for those of the ids that no participant has. -/
def unknown (d : Diagram) (context : String) (ids : List String) : List Issue :=
  (ids.filter (!d.hasParticipant ·)).map (Issue.danglingReference context)

/-- What is wrong with the events, and the activations that they leave open; `active` holds the id of
every activation that is open before them. -/
def eventIssues (d : Diagram) (active : List String) : List Event → List Issue × List String
  | [] => ([], active)
  | event :: events =>
    let (own, active) := match event with
      | .message m => (d.unknown "message" [m.source, m.target], active)
      | .note n => (d.unknown "note" n.participants, active)
      | .activate id => (d.unknown "activation" [id], id :: active)
      | .deactivate id =>
        if active.contains id then (d.unknown "activation" [id], active.erase id)
        else
          (d.unknown "activation" [id] ++ [.invalidEntity id "deactivated while inactive"], active)
      | .blockStart _ _ _ | .blockBranch _ _ _ | .blockEnd _ => ([], active)
    let (rest, active) := d.eventIssues active events
    (own ++ rest, active)

/-- What is wrong with the diagram. -/
def issues (d : Diagram) : List Issue :=
  let (found, active) := d.eventIssues [] d.events
  let unclosed := active.eraseDups.mergeSort fun a b => !decide (b < a)
  Issue.ofCount d.participants.length ++ found ++
    unclosed.map (Issue.invalidEntity · "activation never closed")

end Diagram

instance : Written Arrow where
  write a :=
    .object
      [("line", .text (match a.line with
          | .solid => "Solid"
          | .dotted => "Dotted")),
        ("head", .text (match a.head with
          | .arrow => "Arrow"
          | .unfilled => "Open"
          | .cross => "Cross"
          | .both => "Both"
          | .plain => "None"))]

instance : Written Role where
  write
    | .participant => .text "Participant"
    | .actor => .text "Actor"

instance : Written Participant where
  write p := .object [("id", write p.id), ("label", write p.label), ("kind", write p.role)]

instance : Written UInt32 where
  write n := write n.toNat

instance : Written Message where
  write m :=
    .object [("from", write m.source), ("to", write m.target), ("label", write m.label),
      ("arrow", write m.arrow), ("depth", write m.depth), ("number", write m.number)]

instance : Written BlockKind where
  write
    | .loop => .text "Loop"
    | .alt => .text "Alt"
    | .else => .text "Else"
    | .opt => .text "Opt"
    | .par => .text "Par"
    | .and => .text "And"
    | .critical => .text "Critical"
    | .option => .text "Option"
    | .break => .text "Break"
    | .rect => .text "Rect"

instance : Written Placement where
  write
    | .leftOf => .text "LeftOf"
    | .rightOf => .text "RightOf"
    | .over => .text "Over"

instance : Written Note where
  write n :=
    .object [("placement", write n.placement), ("participants", write n.participants),
      ("text", write n.text)]

/-- A start or a branch of a block as an object. -/
def writeMark (kind : BlockKind) (label : String) (depth : Nat) : Value :=
  .object [("kind", write kind), ("label", write label), ("depth", write depth)]

instance : Written Event where
  write
    | .message m => .case "Message" m
    | .activate id => .case "Activate" id
    | .deactivate id => .case "Deactivate" id
    | .note n => .case "Note" n
    | .blockStart kind label depth => .case "BlockStart" (writeMark kind label depth)
    | .blockBranch kind label depth => .case "BlockBranch" (writeMark kind label depth)
    | .blockEnd depth => .case "BlockEnd" (Value.object [("depth", write depth)])

instance : Written Numbering where
  write n := .object [("start", write n.start), ("step", write n.step)]

instance : Written Diagram where
  write d :=
    .object (d.captions.fields ++
      [("participants", write d.participants), ("items", write d.events),
        ("autonumber", write d.numbering), ("next_number", write d.nextNumber)])

end DiagramText.Sequence
