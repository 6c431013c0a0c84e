import DiagramText.Peg.Match
import DiagramText.Text.Quoted

/-!
# Grammars

A grammar is a root rule with a table of named rules. Definitions may be given in any order and
repeated, in which case the last one counts; `Grammar.build?` accepts them when there is a root and
every name that is referred to has a definition. An input belongs to the grammar when the root
matches all of it.
-/

namespace DiagramText.Peg

/-- A root and the rules that it may refer to. -/
structure Grammar where
  name : String
  root : Rule
  rules : List (String × Rule)

/-- Why definitions do not make up a grammar. -/
inductive BuildFault where
  | noRoot
  | undefinedRules (names : List String)
deriving DecidableEq, Inhabited

/-- The fault of the definitions of a grammar in words. -/
def BuildFault.message (grammar : String) : BuildFault → String
  | noRoot => "grammar '" ++ grammar ++ "' has no root rule"
  | undefinedRules names =>
    "grammar '" ++ grammar ++ "' references undefined rules: \x7b" ++ quoteAllVisibly names ++
      "\x7d"

/-- Gives a name a rule, in place of the one it had. -/
def define (rules : List (String × Rule)) (name : String) (rule : Rule) : List (String × Rule) :=
  rules.filter (·.1 != name) ++ [(name, rule)]

namespace Grammar

/-- The names that `root` and the rules refer to without a definition. -/
def undefinedNames (root : Rule) (rules : List (String × Rule)) : List String :=
  ((root.refs ++ rules.flatMap (·.2.refs)).filter fun name =>
    !rules.any (·.1 == name)).eraseDups

/-- The grammar that the definitions make up. -/
def build? (name : String) (root : Option Rule) (definitions : List (String × Rule)) :
    Except BuildFault Grammar :=
  let rules := definitions.foldl (fun rules (name, rule) => define rules name rule) []
  match root with
  | none => .error .noRoot
  | some root =>
    match undefinedNames root rules with
    | [] => .ok ⟨name, root, rules⟩
    | missing => .error (.undefinedRules missing)

/-- Parses all of `input` with `rule`; references may be nested `depth` deep. -/
def parseWithin (g : Grammar) (depth : Nat) (rule : Rule) (input : String) :
    Except Failure Tree :=
  match rule.matchWithin g.rules depth false (.start input) {} with
  | (some (⟨_, []⟩, fragment), _) => .ok (fragment.toTree ⟨input, 0⟩)
  | (some (⟨consumed, _⟩, _), f) => .error (f.add consumed "end of input").failure
  | (none, f) => .error f.failure

/-- The syntax tree of an input. -/
def parse (g : Grammar) (depth : Nat) (input : String) : Except Failure Tree :=
  g.parseWithin depth g.root input

/-- The syntax tree of an input that the rule of this name is to match. -/
def parseRule (g : Grammar) (depth : Nat) (name input : String) : Except Failure Tree :=
  match g.rules.lookup name with
  | some rule => g.parseWithin depth rule input
  | none => .error ⟨0, ["defined rule '" ++ name ++ "'"]⟩

end Grammar

end DiagramText.Peg
