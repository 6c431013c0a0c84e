import DiagramText.Value

/-!
# Shapes of nodes

A node of a flowchart is drawn in the shape that the brackets around its label show.
-/

namespace DiagramText.Flowchart

/-- The shape of a node. -/
inductive Shape where
  | rectangle | roundedRect | stadium | circle | diamond | hexagon | subroutine | cylinder
  | asymmetric | parallelogram | parallelogramAlt | trapezoid | trapezoidAlt
deriving DecidableEq, Inhabited

namespace Shape

/-- The shape that an opening and a closing bracket show. -/
def ofDelimiters? (opening closing : String) : Option Shape :=
  match opening, closing with
  | "[", "]" => some rectangle
  | "(", ")" => some roundedRect
  | "([", "])" => some stadium
  | "((", "))" => some circle
  | "\x7b", "\x7d" => some diamond
  | "\x7b\x7b", "\x7d\x7d" => some hexagon
  | "[[", "]]" => some subroutine
  | "[(", ")]" => some cylinder
  | ">", "]" => some asymmetric
  | "[/", "/]" => some parallelogram
  | "[\\", "\\]" => some parallelogramAlt
  | "[/", "\\]" => some trapezoid
  | "[\\", "/]" => some trapezoidAlt
  | _, _ => none

/-- The name of the shape in a graph for layout. -/
def name : Shape → String
  | rectangle => "rectangle"
  | roundedRect => "rounded"
  | stadium => "stadium"
  | circle => "circle"
  | diamond => "diamond"
  | hexagon => "hexagon"
  | subroutine => "subroutine"
  | cylinder => "cylinder"
  | asymmetric => "asymmetric"
  | parallelogram => "parallelogram"
  | parallelogramAlt => "parallelogram-alt"
  | trapezoid => "trapezoid"
  | trapezoidAlt => "trapezoid-alt"

instance : Written Shape where
  write
    | rectangle => .text "Rectangle"
    | roundedRect => .text "RoundedRect"
    | stadium => .text "Stadium"
    | circle => .text "Circle"
    | diamond => .text "Diamond"
    | hexagon => .text "Hexagon"
    | subroutine => .text "Subroutine"
    | cylinder => .text "Cylinder"
    | asymmetric => .text "Asymmetric"
    | parallelogram => .text "Parallelogram"
    | parallelogramAlt => .text "ParallelogramAlt"
    | trapezoid => .text "Trapezoid"
    | trapezoidAlt => .text "TrapezoidAlt"

end Shape

end DiagramText.Flowchart
