import DiagramText.Text.Numeral
import DiagramText.Text.Offset
import DiagramText.Text.Quoted
import DiagramText.Tree

/-!
# Reading trees

A model is read from the syntax tree of its document. A tree may fail to offer what is asked for: a
field is missing, is no group, or is no number of the right kind; a statement has none of the shapes
that the kind of diagram knows. These are faults of the tree. Beyond them each kind of diagram has
complaints of its own about what its documents say, which `Cause.complaint` wraps.

`Shapes` chooses how to read a statement by the fields that its tree has. Of the shapes that fit, the
one with most fields is chosen, and of several such the one given first.
-/

namespace DiagramText

/-- The complaints of a kind of diagram, each with its message. -/
class Complaint (ε : Type) where
  /-- The words of a complaint. -/
  message : ε → String

instance : Complaint Empty := ⟨Empty.elim⟩

/-- Why a tree could not be read. -/
inductive Cause (ε : Type) where
  | missing (field within : String)
  | notGroup (field : String)
  | malformed (text field : String)
  | noShape (keys : List String)
  | complaint (e : ε)
deriving DecidableEq

namespace Cause

/-- The cause in words. -/
def message [Complaint ε] : Cause ε → String
  | missing field within => "missing '" ++ field ++ "' in '" ++ within ++ "'"
  | notGroup field => "'" ++ field ++ "' is not a group"
  | malformed text field => "'" ++ text ++ "' is not a valid " ++ field
  | noShape keys => "no rule for statement shape [" ++ quoteAllVisibly keys ++ "]"
  | complaint e => Complaint.message e

/-- Whether the tree lacks what its reading needs, as opposed to saying something wrong. -/
def isShapeFault : Cause ε → Bool
  | missing _ _ | notGroup _ | noShape _ => true
  | malformed _ _ | complaint _ => false

/-- The cause with another type of complaints. -/
def map (f : ε → δ) : Cause ε → Cause δ
  | missing field within => missing field within
  | notGroup field => notGroup field
  | malformed text field => malformed text field
  | noShape keys => noShape keys
  | complaint e => complaint (f e)

end Cause

/-- Why a tree could not be read, and where. -/
structure Fault (ε : Type) where
  offset : Option Nat
  cause : Cause ε
deriving DecidableEq

/-- Where the fault lies, counted in characters of the text. -/
def Fault.charOffset? (fault : Fault ε) (source : String) : Option Nat := fault.offset.map (charOffset source)

/-- The fault with another type of complaints. -/
def Fault.map (f : ε → δ) (fault : Fault ε) : Fault δ := ⟨fault.offset, fault.cause.map f⟩

/-- What is read from a tree. -/
abbrev Reading (ε α : Type) := Except (Fault ε) α

/-- A complaint about what stands at an offset. -/
def complain (offset : Nat) (e : ε) : Reading ε α := .error ⟨some offset, .complaint e⟩

/-- The value, or a complaint about what stands at an offset where there is none. -/
def orComplain (a : Option α) (offset : Nat) (e : ε) : Reading ε α :=
  match a with
  | some a => .ok a
  | none => complain offset e

namespace Tree

/-- A field that the tree must have. -/
def need (t : Tree) (field : String) : Reading ε Node :=
  match t.get? field with
  | some node => .ok node
  | none => .error ⟨some t.span.offset, .missing field t.span.trimmed⟩

/-- The text of a field that the tree must have, without the blanks around it. -/
def needText (t : Tree) (field : String) : Reading ε String := do
  return trim (← t.need field).text

/-- The text of a field without the blanks around it, if that leaves something. -/
def filled? (t : Tree) (field : String) : Option String := (t.trimmed? field).filter (· != "")

/-- The text that a field, which the tree must have, stands for. -/
def needString (t : Tree) (field : String) : Reading ε String := do
  return unquote (← t.needText field)

/-- The text that a field stands for, if it holds something. -/
def string? (t : Tree) (field : String) : Option String := (t.filled? field).map unquote

/-- The tree in a field that the tree must have. -/
def needGroup (t : Tree) (field : String) : Reading ε Tree := do
  let node ← t.need field
  match node with
  | .tree group => .ok group
  | node => .error ⟨some node.offset, .notGroup field⟩

/-- A number in a field that the tree must have. -/
def needNumber (read? : String → Option α) (t : Tree) (field : String) : Reading ε α := do
  let node ← t.need field
  let text := trim node.text
  match read? text with
  | some a => .ok a
  | none => .error ⟨some node.offset, .malformed text field⟩

/-- A number in a field, if that holds something. -/
def number? (read? : String → Option α) (t : Tree) (field : String) : Reading ε (Option α) :=
  match t.filled? field with
  | some _ => (t.needNumber read? field).map some
  | none => .ok none

/-- Where the token in a field starts; where the tree starts when it has no such token. -/
def startOf (t : Tree) (field : String) : Nat :=
  match t.token? field with
  | some token => token.offset
  | none => t.span.offset

end Tree

/-- The shapes of the statements of a kind, each with its reading, longer ones first. -/
structure Shapes (ε α : Type) where
  entries : List (List String × (Tree → Reading ε α)) := []

namespace Shapes

/-- Puts an entry behind those with at least as many fields. -/
def place (signature : List String) (read : Tree → Reading ε α) :
    List (List String × (Tree → Reading ε α)) → List (List String × (Tree → Reading ε α))
  | [] => [(signature, read)]
  | entry :: rest =>
    if entry.1.length < signature.length then (signature, read) :: entry :: rest
    else entry :: place signature read rest

/-- The shapes with one more, which is tried after those with at least as many fields. -/
def on (s : Shapes ε α) (signature : List String) (read : Tree → Reading ε α) : Shapes ε α :=
  ⟨place signature read s.entries⟩

/-- The shapes of a list, given in this order. -/
def ofList (entries : List (List String × (Tree → Reading ε α))) : Shapes ε α :=
  entries.foldl (fun s (signature, read) => s.on signature read) {}

/-- Reads a statement by the first shape all of whose fields the tree has. -/
def read (s : Shapes ε α) (t : Tree) : Reading ε α :=
  match s.entries.find? fun entry => entry.1.all t.has with
  | some (_, read) => read t
  | none => .error ⟨some t.span.offset, .noShape t.keys⟩

/-- Reads statements up to the first fault. -/
def readAll (s : Shapes ε α) (ts : List Tree) : Reading ε (List α) := ts.mapM s.read

/-- Reads statements, each with the offset at which it starts. -/
def readPlaced (s : Shapes ε α) (ts : List Tree) : Reading ε (List (Nat × α)) :=
  ts.mapM fun t => do return (t.span.offset, ← s.read t)

end Shapes

end DiagramText
