import DiagramText.Style

/-!
# Arrows

The token of an arrow shows how its line is drawn, what stands at its two ends, and how many ranks the
arrow spans: the more characters its line has, the longer it is. A label inside the arrow cuts the
token in two, of which the first one shows the start and the second one all the rest.
-/

namespace DiagramText.Flowchart

/-- What stands at an end of an arrow. -/
inductive Head where
  | none | arrow | circle | cross
deriving DecidableEq, Inhabited

namespace Head

/-- What a character shows at an end of an arrow. -/
def ofChar : Char → Head
  | '>' | '<' => arrow
  | 'o' => circle
  | 'x' => cross
  | _ => none

/-- The name of the head in a graph for layout. -/
def name : Head → String
  | none => "none"
  | arrow => "arrow"
  | circle => "circle"
  | cross => "cross"

end Head

/-- An arrow. -/
structure Arrow where
  stroke : LineStyle := .solid
  head : Head := .arrow
  tail : Head := .none
  length : Nat := 1
deriving DecidableEq, Inhabited

/-- The arrow of a token, before which a token may open it. -/
def Arrow.ofToken (opening : Option String) (token : String) : Arrow :=
  let cs := token.toList
  let tail := Head.ofChar ((opening.getD token).toList.head?.getD '-')
  let head := Head.ofChar (cs.getLast?.getD '-')
  let spare := if head = .none then 2 else 1
  let (stroke, length) :=
    if cs.contains '~' then (LineStyle.invisible, 1)
    else if cs.contains '.' then (.dashed, cs.count '.')
    else if cs.contains '=' then (.thick, cs.count '=' - spare)
    else (.solid, cs.count '-' - spare)
  { stroke, head, tail, length := max length 1 }

instance : Written Head where
  write
    | .none => .text "None"
    | .arrow => .text "Arrow"
    | .circle => .text "Circle"
    | .cross => .text "Cross"

end DiagramText.Flowchart
