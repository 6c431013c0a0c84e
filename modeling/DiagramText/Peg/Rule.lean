import DiagramText.Peg.CharClass

/-!
# Rules

The language of grammars: parsing expressions with ordered choice and greedy repetition, together
with three wrappers that do not change what is matched. `capture` names the part of the input that
its rule matches, `labelled` replaces what a failure report says of a rule that got no further than
its start, and `quiet` keeps the rule out of failure reports. A `ref` stands for the rule of that
name in the grammar.
-/

namespace DiagramText.Peg

/-- A parsing expression. -/
inductive Rule where
  | literal (text : String) (anyCase : Bool)
  | chars (set : CharClass)
  | sequence (rules : List Rule)
  | choice (rules : List Rule)
  | repeated (rule : Rule) (least : Nat) (most : Option Nat)
  | optional (rule : Rule)
  | notAhead (rule : Rule)
  | capture (field : String) (rule : Rule)
  | labelled (label : String) (rule : Rule)
  | quiet (rule : Rule)
  | ref (name : String)

instance : Inhabited Rule := ⟨.sequence []⟩

namespace Rule

/-- `r` followed by `next`; a sequence grows at its end. -/
def andThen (r next : Rule) : Rule :=
  match r with
  | sequence rules => sequence (rules ++ [next])
  | r => sequence [r, next]

/-- `r`, or `other` where `r` fails; a choice grows at its end. -/
def orElse (r other : Rule) : Rule :=
  match r with
  | choice rules => choice (rules ++ [other])
  | r => choice [r, other]

mutual

/-- What a report expects where the rule fails at its start. -/
def describe : Rule → String
  | literal text _ => quoteText text
  | chars set => set.describe
  | sequence [] => "nothing"
  | sequence (r :: _) => r.describe
  | choice rules => " or ".intercalate (describeAll rules)
  | repeated r _ _ => r.describe
  | optional r => r.describe
  | notAhead r => "not " ++ r.describe
  | capture _ r => r.describe
  | labelled label _ => label
  | quiet r => r.describe
  | ref name => name

/-- The descriptions of each of the rules. -/
def describeAll : List Rule → List String
  | [] => []
  | r :: rs => r.describe :: describeAll rs

end

mutual

/-- The names that the rule refers to, in the order of their occurrence. -/
def refs : Rule → List String
  | literal _ _ | chars _ => []
  | sequence rules | choice rules => refsAll rules
  | repeated r _ _ | optional r | notAhead r | capture _ r | labelled _ r | quiet r => r.refs
  | ref name => [name]

/-- The names that the rules refer to. -/
def refsAll : List Rule → List String
  | [] => []
  | r :: rs => r.refs ++ refsAll rs

end

end Rule

/-! ## Short forms -/

/-- Exactly this text. -/
def lit (text : String) : Rule := .literal text false

/-- This text, the case of ASCII letters aside. -/
def litAnyCase (text : String) : Rule := .literal text true

/-- One of the characters of `set`. -/
def oneOf (set : String) : Rule := .chars (.oneOf set.toList)

/-- A character that is not in `set`. -/
def noneOf (set : String) : Rule := .chars (.noneOf set.toList)

/-- A character from `first` to `last`. -/
def range (first last : Char) : Rule := .chars (.range first last)

/-- Any one character. -/
def anyChar : Rule := .chars .any

/-- As often as possible, perhaps never. -/
def many (r : Rule) : Rule := .repeated r 0 none

/-- As often as possible, at least once. -/
def many1 (r : Rule) : Rule := .repeated r 1 none

/-- The end of the input. -/
def endOfInput : Rule := .labelled "end of input" (.notAhead anyChar)

end DiagramText.Peg
