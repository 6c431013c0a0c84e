/-!
# Character classes

The sets of characters that a rule can ask for, and the words in which a failure report names them.
-/

namespace DiagramText.Peg

/-- A set of characters. -/
inductive CharClass where
  | any
  | oneOf (set : List Char)
  | noneOf (set : List Char)
  | range (first last : Char)
  | union (classes : List CharClass)
  | satisfying (holds : Char → Bool) (name : String)

instance : Inhabited CharClass := ⟨.any⟩

/-- How a report writes a character. -/
def quoteChar (c : Char) : String :=
  match c with
  | '\n' => "newline"
  | '\r' => "carriage return"
  | '\t' => "tab"
  | ' ' => "space"
  | c => String.ofList ['\'', c, '\'']

/-- How a report writes a literal text; both forms of a line end are a newline. -/
def quoteText (text : String) : String :=
  if text = "\n" || text = "\r\n" then "newline" else "'" ++ text ++ "'"

/-- The characters of a set, each as a report writes it. -/
def quoteSet (set : List Char) : String := " ".intercalate (set.map quoteChar)

namespace CharClass

mutual

/-- Whether `c` is in the class. -/
def contains (c : Char) : CharClass → Bool
  | any => true
  | oneOf set => set.contains c
  | noneOf set => !set.contains c
  | range first last => first ≤ c && c ≤ last
  | union classes => anyContains c classes
  | satisfying holds _ => holds c

/-- Whether `c` is in one of the classes. -/
def anyContains (c : Char) : List CharClass → Bool
  | [] => false
  | k :: ks => contains c k || anyContains c ks

end

mutual

/-- The words for the class in a report. -/
def describe : CharClass → String
  | any => "any character"
  | oneOf [c] => quoteChar c
  | oneOf set => "one of " ++ quoteSet set
  | noneOf set => "any character except " ++ quoteSet set
  | range first last => quoteChar first ++ ".." ++ quoteChar last
  | union classes => " or ".intercalate (describeAll classes)
  | satisfying _ name => name

/-- The words for each of the classes. -/
def describeAll : List CharClass → List String
  | [] => []
  | k :: ks => describe k :: describeAll ks

end

end CharClass

end DiagramText.Peg
