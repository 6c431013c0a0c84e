import DiagramText.Text.Blank
import DiagramText.Value

/-!
# Members of classes

The text of a member begins with a sign for its visibility and ends with one for its classifier, and
both may be missing. A method has parameters in parentheses, which its type follows. An attribute is
written as name, colon and type, or as type and name with a blank between.
-/

namespace DiagramText.ClassDiagram

/-- Who may use a member. -/
inductive Visibility where
  | everyone | owner | heirs | package
deriving DecidableEq, Inhabited

namespace Visibility

/-- The visibility with a sign. -/
def ofChar? : Char → Option Visibility
  | '+' => some everyone
  | '-' => some owner
  | '#' => some heirs
  | '~' => some package
  | _ => none

/-- The sign for a visibility. -/
def toChar : Visibility → Char
  | everyone => '+'
  | owner => '-'
  | heirs => '#'
  | package => '~'

end Visibility

/-- Whether a member is abstract or static. -/
inductive Classifier where
  | deferred | static
deriving DecidableEq, Inhabited

namespace Classifier

/-- The classifier with a sign. -/
def ofChar? : Char → Option Classifier
  | '*' => some deferred
  | '$' => some static
  | _ => none

/-- The sign for a classifier. -/
def toChar : Classifier → Char
  | deferred => '*'
  | static => '$'

end Classifier

/-- A member; methods are those with parameters. -/
structure Member where
  visibility : Option Visibility
  name : String
  type : Option String
  parameters : Option String
  classifier : Option Classifier
deriving DecidableEq, Inhabited

namespace Member

/-- Whether the member is a method. -/
def isMethod (m : Member) : Bool := m.parameters.isSome

/-- The sign of visibility at the start, and what follows it. -/
def splitVisibility : List Char → Option Visibility × List Char
  | c :: rest =>
    match Visibility.ofChar? c with
    | some v => (some v, rest)
    | none => (none, c :: rest)
  | [] => (none, [])

/-- What precedes the sign of a classifier at the end, and that classifier. -/
def splitClassifier (cs : List Char) : List Char × Option Classifier :=
  let trimmed := Chars.trimEnd cs
  match trimmed.getLast?.bind Classifier.ofChar? with
  | some classifier => (Chars.trimEnd trimmed.dropLast, some classifier)
  | none => (trimmed, none)

/-- The text without the blanks around it, if that leaves something. -/
def filled? (cs : List Char) : Option String :=
  match Chars.trim cs with
  | [] => none
  | cs => some (String.ofList cs)

/-- The type and the name of an attribute, from its text without signs. -/
def splitAttribute (cs : List Char) : Option String × List Char :=
  match cs.span (· != ':') with
  | (name, _ :: type) => (filled? type, Chars.trim name)
  | (_, []) =>
    match (Chars.trim cs).reverse.span (!isBlank ·) with
    | (name, _ :: type) => (filled? type.reverse, name.reverse)
    | (name, []) => (none, name.reverse)

/-- A method, from its visibility and the text after that. -/
def method? (visibility : Option Visibility) (cs : List Char) : Option Member :=
  match cs.span (· != '(') with
  | (name@(_ :: _), _ :: rest) =>
    match rest.span (· != ')') with
    | (parameters, _ :: rest) =>
      let (type, classifier) := splitClassifier rest
      some
        { visibility
          name := String.ofList (Chars.trim name)
          type := filled? (Chars.trimStartBy (· == ':') (Chars.trimStart type))
          parameters := some (String.ofList (Chars.trim parameters))
          classifier }
    | _ => none
  | _ => none

/-- An attribute, from its visibility and the text after that. -/
def attribute? (visibility : Option Visibility) (cs : List Char) : Option Member :=
  if cs.isEmpty then none
  else
    let (text, classifier) := splitClassifier cs
    let (type, name) := splitAttribute text
    some { visibility, name := String.ofList name, type, parameters := none, classifier }

/-- Reads a member, which must have a name. -/
def ofText? (raw : String) : Option Member :=
  let (visibility, cs) := splitVisibility (Chars.trim raw.toList)
  ((method? visibility cs).orElse fun _ => attribute? visibility cs).filter (·.name != "")

end Member

instance : Written Visibility where
  write
    | .everyone => .text "Public"
    | .owner => .text "Private"
    | .heirs => .text "Protected"
    | .package => .text "Package"

instance : Written Classifier where
  write
    | .deferred => .text "Abstract"
    | .static => .text "Static"

instance : Written Member where
  write m :=
    .object [("visibility", write m.visibility), ("name", write m.name),
      ("member_type", write m.type), ("parameters", write m.parameters),
      ("classifier", write m.classifier)]

end DiagramText.ClassDiagram
