import DiagramText.Text.Blank

/-!
# Syntax trees

A tree is the span of the input that it covers together with the fields that were captured inside
it, in the order of capture. A field holds a token (a span and nothing below it), a tree, or a list
of trees, and a name may occur several times: looking it up gives its first occurrence.
-/

namespace DiagramText

/-- A span of the input: its text and the offset at which it starts. -/
structure Token where
  text : String
  offset : Nat
deriving DecidableEq, Inhabited

namespace Token

/-- The offset just behind the span. -/
def stop (t : Token) : Nat := t.offset + t.text.utf8ByteSize

/-- The text without the blanks around it. -/
def trimmed (t : Token) : String := trim t.text

end Token

mutual

/-- What a field holds. -/
inductive Node where
  | token (token : Token)
  | tree (tree : Tree)
  | list (trees : List Tree)

/-- A span and the fields captured inside it. -/
inductive Tree where
  | mk (span : Token) (fields : List (String × Node))

end

namespace Tree

/-- The part of the input that the tree covers. -/
def span : Tree → Token
  | mk span _ => span

/-- The captured fields. -/
def fields : Tree → List (String × Node)
  | mk _ fields => fields

instance : Inhabited Tree := ⟨mk default []⟩

end Tree

namespace Node

instance : Inhabited Node := ⟨token default⟩

/-- The span of a token or a tree, and of the first tree of a list; an empty list has none. -/
def span : Node → Token
  | token t => t
  | tree t => t.span
  | list (t :: _) => t.span
  | list [] => ⟨"", 0⟩

/-- The text that the node covers. -/
def text (n : Node) : String := n.span.text

/-- Where the node starts. -/
def offset (n : Node) : Nat := n.span.offset

/-- The token that the node is. -/
def token? : Node → Option Token
  | token t => some t
  | _ => none

/-- The tree that the node is. -/
def tree? : Node → Option Tree
  | tree t => some t
  | _ => none

/-- The list that the node is. -/
def list? : Node → Option (List Tree)
  | list ts => some ts
  | _ => none

end Node

namespace Tree

/-- The names of the fields, repetitions included. -/
def keys (t : Tree) : List String := t.fields.map (·.1)

/-- The first field of this name. -/
def get? (t : Tree) (field : String) : Option Node := t.fields.lookup field

/-- Whether a field of this name was captured. -/
def has (t : Tree) (field : String) : Bool := t.fields.any (·.1 == field)

/-- All fields of this name. -/
def getAll (t : Tree) (field : String) : List Node :=
  (t.fields.filter (·.1 == field)).map (·.2)

/-- The token in a field. -/
def token? (t : Tree) (field : String) : Option Token := (t.get? field).bind Node.token?

/-- The text of a field. -/
def text? (t : Tree) (field : String) : Option String := (t.get? field).map Node.text

/-- The text of a field without the blanks around it. -/
def trimmed? (t : Tree) (field : String) : Option String := (t.text? field).map trim

/-- The tree in a field. -/
def tree? (t : Tree) (field : String) : Option Tree := (t.get? field).bind Node.tree?

/-- The trees in a field; none when the field is missing or holds something else. -/
def list (t : Tree) (field : String) : List Tree := ((t.get? field).bind Node.list?).getD []

/-- Where a field starts; zero when there is no such field. -/
def offsetOf (t : Tree) (field : String) : Nat := ((t.get? field).map Node.offset).getD 0

/-- The number of trees on the longest way down from the tree. -/
def height : Tree → Nat
  | mk _ fields => heightOfFields fields + 1
where
  /-- The greatest height of the trees in a node. -/
  heightOfNode : Node → Nat
    | .token _ => 0
    | .tree t => height t
    | .list ts => heightOfTrees ts
  /-- The greatest height of the trees in fields. -/
  heightOfFields : List (String × Node) → Nat
    | [] => 0
    | (_, node) :: rest => max (heightOfNode node) (heightOfFields rest)
  /-- The greatest height of several trees. -/
  heightOfTrees : List Tree → Nat
    | [] => 0
    | t :: rest => max (height t) (heightOfTrees rest)

/-- A field can be looked up exactly when it was captured. -/
theorem isSome_get? (t : Tree) (field : String) : (t.get? field).isSome = t.has field := by
  obtain ⟨span, fields⟩ := t
  simp only [get?, has, Tree.fields]
  induction fields with
  | nil => rfl
  | cons f fs ih =>
    obtain ⟨name, node⟩ := f
    have comm : (field == name) = (name == field) := BEq.comm
    simp only [List.lookup_cons, List.any_cons, comm]
    cases name == field
    · simpa using ih
    · rfl

end Tree

end DiagramText
