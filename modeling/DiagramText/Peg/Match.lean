import DiagramText.Peg.Frontier
import DiagramText.Peg.Rule
import DiagramText.Text.Offset
import DiagramText.Tree

/-!
# Matching

How a rule matches at a position. A match ends at a position and yields a fragment: the fields that
were captured, or, for a repetition, one tree for every round that captured something. A fragment
that enters a sequence becomes plain fields, so only a repetition that is captured as a whole
becomes a list.

`Rule.match` says it for one rule, given how references match; it recurses on the rule.
`Rule.matchWithin` closes the circle with a table of rules. It recurses on the number of references
that may still be entered inside each other; where none is left a reference is refused, which the
frontier remembers.
-/

namespace DiagramText.Peg

/-- A position in the input: its offset, and the characters from there on. -/
structure Cursor where
  offset : Nat
  rest : List Char
deriving DecidableEq, Inhabited

namespace Cursor

/-- The start of a text. -/
def start (text : String) : Cursor := ⟨0, text.toList⟩

/-- The span from one position to a later one. -/
def spanTo (first last : Cursor) : Token :=
  ⟨String.ofList (Chars.takeBytes (last.offset - first.offset) first.rest), first.offset⟩

/-- The position behind `text`, if the input goes on with it. -/
def skip? (cur : Cursor) (text : String) (anyCase : Bool) : Option Cursor :=
  let rest :=
    if anyCase then Chars.dropStartAnyCase? text.toList cur.rest
    else Chars.dropStart? text.toList cur.rest
  rest.map fun rest => ⟨cur.offset + text.utf8ByteSize, rest⟩

/-- The position behind the next character, if the class has it. -/
def next? (cur : Cursor) (set : CharClass) : Option Cursor :=
  match cur.rest with
  | [] => none
  | c :: rest => if set.contains c then some ⟨cur.offset + c.utf8Size, rest⟩ else none

end Cursor

/-- What a match captured. -/
inductive Fragment where
  | fields (fields : List (String × Node))
  | items (trees : List Tree)

namespace Fragment

/-- Nothing was captured. -/
def empty : Fragment := fields []

/-- The captured fields; those of the rounds of a repetition one after the other. -/
def toFields : Fragment → List (String × Node)
  | fields fs => fs
  | items ts => ts.flatMap Tree.fields

/-- The fields of the first fragment and then those of the second. -/
def append (a b : Fragment) : Fragment := fields (a.toFields ++ b.toFields)

/-- The tree over `span` that holds the fragment's fields. -/
def toTree (f : Fragment) (span : Token) : Tree := .mk span f.toFields

/-- What a capture of `span` holds: a token when nothing was captured inside. -/
def toNode (f : Fragment) (span : Token) : Node :=
  match f with
  | fields [] | items [] => .token span
  | fields fs => .tree (.mk span fs)
  | items ts => .list ts

end Fragment

/-- Where a match ends and what it captured; `none` when there is none. -/
abbrev Outcome := Option (Cursor × Fragment)

/-- A way to match: whether failures go unreported, where to start, and the frontier so far. -/
abbrev Matcher := Bool → Cursor → Frontier → Outcome × Frontier

/-- The failure of a rule at `cur`, which expects what `describe` says. -/
@[inline]
def miss (describe : Unit → String) (silent : Bool) (cur : Cursor) (f : Frontier) :
    Outcome × Frontier :=
  if silent || cur.offset < f.offset then (none, f) else (none, f.add cur.offset (describe ()))

/-- The rounds of a repetition from `cur` on, after `count` rounds that left `trees`. It ends with
the first round that fails or consumes nothing. The list `clock` has an element for each character
that is left, so that it outlasts the rounds which consume something. -/
def rounds (step : Cursor → Frontier → Outcome × Frontier) (most : Option Nat) :
    List Char → Nat → Cursor → List Tree → Frontier → (Nat × Cursor × List Tree) × Frontier
  | clock, count, cur, trees, f =>
    if most.all (count < ·) then
      match step cur f with
      | (none, f) => ((count, cur, trees), f)
      | (some (next, fragment), f) =>
        let trees :=
          match fragment.toFields with
          | [] => trees
          | fields => .mk (cur.spanTo next) fields :: trees
        if next.offset = cur.offset then ((count + 1, next, trees), f)
        else match clock with
          | [] => ((count + 1, next, trees), f)
          | _ :: clock => rounds step most clock (count + 1) next trees f
    else ((count, cur, trees), f)

namespace Rule

mutual

/-- Matches a rule, where `call` matches the rule of a name. -/
def matchWith (call : String → Matcher) : Rule → Matcher
  | literal text anyCase, silent, cur, f =>
    match cur.skip? text anyCase with
    | some next => (some (next, .empty), f)
    | none => miss (fun _ => quoteText text) silent cur f
  | chars set, silent, cur, f =>
    match cur.next? set with
    | some next => (some (next, .empty), f)
    | none => miss (fun _ => set.describe) silent cur f
  | sequence rules, silent, cur, f => matchAll call rules silent .empty cur f
  | choice rules, silent, cur, f => matchAny call rules silent cur f
  | repeated r least most, silent, cur, f =>
    match rounds (fun cur f => matchWith call r silent cur f) most cur.rest 0 cur [] f with
    | ((count, next, trees), f) =>
      (if count < least then none else some (next, .items trees.reverse), f)
  | optional r, silent, cur, f =>
    match matchWith call r silent cur f with
    | (none, f) => (some (cur, .empty), f)
    | found => found
  | notAhead r, _, cur, f =>
    match matchWith call r true cur f with
    | (none, f) => (some (cur, .empty), f)
    | (some _, f) => (none, f)
  | capture field r, silent, cur, f =>
    match matchWith call r silent cur f with
    | (none, f) => (none, f)
    | (some (next, fragment), f) =>
      (some (next, .fields [(field, fragment.toNode (cur.spanTo next))]), f)
  | labelled label r, silent, cur, before =>
    match matchWith call r silent cur before with
    | (none, f) =>
      if silent || cur.offset < f.offset then (none, f)
      else (none, { before.add cur.offset label with refused := f.refused })
    | found => found
  | quiet r, _, cur, f => matchWith call r true cur f
  | ref name, silent, cur, f => call name silent cur f

/-- Matches the rules one after the other and joins `fragment` with what they capture. -/
def matchAll (call : String → Matcher) :
    List Rule → Bool → Fragment → Cursor → Frontier → Outcome × Frontier
  | [], _, fragment, cur, f => (some (cur, fragment), f)
  | r :: rs, silent, fragment, cur, f =>
    match matchWith call r silent cur f with
    | (none, f) => (none, f)
    | (some (next, captured), f) => matchAll call rs silent (fragment.append captured) next f

/-- Matches the first of the rules that matches. -/
def matchAny (call : String → Matcher) : List Rule → Matcher
  | [], _, _, f => (none, f)
  | r :: rs, silent, cur, f =>
    match matchWith call r silent cur f with
    | (none, f) => matchAny call rs silent cur f
    | found => found

end

/-- A reference that would be nested too deeply: it fails, and the frontier remembers it. -/
def refuse : Matcher := fun silent cur f =>
  match miss (fun _ => "less deeply nested input") silent cur f with
  | (outcome, f) => (outcome, { f with refused := true })

/-- Matches the rule of a name in `table` with at most `depth` references inside each other. A name
that the table lacks matches nothing. -/
def callWithin (table : List (String × Rule)) : Nat → String → Matcher
  | 0, _ => refuse
  | depth + 1, name =>
    match table.lookup name with
    | some r => matchWith (callWithin table depth) r
    | none => fun _ _ f => (none, f)

/-- Matches a rule whose references are those of `table`. -/
def matchWithin (table : List (String × Rule)) (depth : Nat) (r : Rule) : Matcher :=
  matchWith (callWithin table depth) r

end Rule

end DiagramText.Peg
