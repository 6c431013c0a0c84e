import DiagramText.Kind

/-!
# Detecting the kind of a document

The first significant line of a document, the first that is neither blank nor a comment, tells its
kind: it begins with one of the kind's keywords, and no character of a word follows the keyword.
-/

namespace DiagramText

/-- Whatever recognises the documents of a kind by their first significant lines. -/
class Recognises (D : Type) where
  kind : D → Kind
  matchesLine : D → String → Bool

/-- The first line that holds something other than blanks and a comment, without the blanks around
it. -/
def firstSignificantLine (input : String) : Option String :=
  (((Chars.lines input.toList).map Chars.trim).find? fun line =>
    !line.isEmpty && !"%%".toList.isPrefixOf line).map String.ofList

/-- Recognises a kind by keywords. -/
structure Detector where
  kind : Kind
  keywords : List String
  anyCase : Bool
deriving DecidableEq, Inhabited

namespace Detector

/-- The detector of a kind. -/
def ofKind (kind : Kind) : Detector := ⟨kind, kind.keywords, kind.anyCase⟩

/-- Whether a line begins with the keyword as a word. -/
def startsWith (d : Detector) (line keyword : String) : Bool :=
  let rest :=
    if d.anyCase then Chars.dropStartAnyCase? keyword.toList line.toList
    else Chars.dropStart? keyword.toList line.toList
  match rest with
  | none => false
  | some [] => true
  | some (c :: _) => !(c.isAlphanum || c == '_' || c == '-')

/-- Whether a line begins with one of the keywords. -/
def matchesLine (d : Detector) (line : String) : Bool := d.keywords.any (d.startsWith line)

/-- Whether the first significant line of a document begins with one of the keywords. -/
def detects (d : Detector) (input : String) : Bool :=
  (firstSignificantLine input).any d.matchesLine

end Detector

instance : Recognises Detector := ⟨Detector.kind, Detector.matchesLine⟩

@[simp] theorem Detector.kind_ofKind (kind : Kind) : Recognises.kind (ofKind kind) = kind := rfl

end DiagramText
