import DiagramText.Captions
import DiagramText.Graph
import DiagramText.Issue
import DiagramText.Peg.Grammar
import DiagramText.Peg.Lexeme
import DiagramText.Text.Decimal
import DiagramText.Text.Separated

/-!
# Quadrant charts

Points in the unit square, whose four quadrants may have names. The quadrants are counted from the
upper right one against the clock. A point may have a class, which must be defined somewhere in the
document, and properties of its own.
-/

namespace DiagramText.Quadrant

/-- An axis with the names of its two ends. -/
structure Axis where
  low : String
  high : Option String := none
deriving DecidableEq, Inhabited

/-- A list of properties. -/
abbrev Properties := List (String × String)

/-- A point. -/
structure Point where
  name : String
  x : Float
  y : Float
  inClass : Option String := none
  style : Properties := []

namespace Point

/-- Whether the point lies in the unit square. -/
def inRange (p : Point) : Bool := 0 ≤ p.x && p.x ≤ 1 && 0 ≤ p.y && p.y ≤ 1

/-- The quadrant of the point; the lines in the middle belong to the upper and right ones. -/
def quadrant (p : Point) : Nat :=
  if p.x ≥ 0.5 then if p.y ≥ 0.5 then 1 else 4
  else if p.y ≥ 0.5 then 2 else 3

end Point

/-- A quadrant chart. -/
structure Chart where
  captions : Captions := {}
  xAxis : Option Axis := none
  yAxis : Option Axis := none
  quadrants : Vector (Option String) 4 := .replicate 4 none
  points : List Point := []
  classes : Table Properties := []

namespace Chart

/-- The chart in which a quadrant has a name; none where there is no quadrant of this number. -/
def nameQuadrant? (c : Chart) (number : Nat) (text : String) : Option Chart :=
  if 1 ≤ number ∧ number ≤ 4 then
    some { c with quadrants := c.quadrants.setIfInBounds (number - 1) (some text) }
  else none

/-- The name of a quadrant. -/
def quadrant? (c : Chart) (number : Nat) : Option String :=
  if number = 0 then none else (c.quadrants[number - 1]?).join

/-- The chart with one more point. -/
def addPoint (c : Chart) (p : Point) : Chart := { c with points := c.points ++ [p] }

/-- The first point of a name. -/
def point? (c : Chart) (name : String) : Option Point := c.points.find? (·.name == name)

/-- The chart in which a class has these properties. -/
def defineClass (c : Chart) (name : String) (style : Properties) : Chart :=
  { c with classes := c.classes.insert name style }

/-- The number of points. -/
def entityCount (c : Chart) : Nat := c.points.length

/-- What is wrong with a point. -/
def pointIssues (c : Chart) (p : Point) : List Issue :=
  (if p.inRange then []
    else
      [.invalidEntity p.name
        ("[" ++ decimalText p.x ++ ", " ++ decimalText p.y ++ "] lies outside [0, 1]")]) ++
    ((p.inClass.filter fun name => (c.classes.get? name).isNone).map
      (Issue.danglingReference "point class")).toList

/-- What is wrong with the chart. -/
def issues (c : Chart) : List Issue :=
  Issue.ofCount c.points.length ++ c.points.flatMap c.pointIssues

end Chart

instance : Written Axis where
  write a := .object [("low", write a.low), ("high", write a.high)]

instance : Written Point where
  write p :=
    .object [("name", write p.name), ("x", write p.x), ("y", write p.y),
      ("class", write p.inClass), ("style", write p.style)]

instance : Written Chart where
  write c :=
    .object (c.captions.fields ++
      [("x_axis", write c.xAxis), ("y_axis", write c.yAxis),
        ("quadrants", write c.quadrants.toList), ("points", write c.points),
        ("class_defs", Graph.writeTable c.classes)])

/-! ## Documents -/

section

open Peg

/-- The name of the lower end of an axis. -/
def axisTextRule : Rule :=
  .labelled "axis text"
    (.quiet (many1 (.sequence [.notAhead (lit "-->"), noneOf "\r\n"])))

/-- An axis. -/
def axisRule (word field : String) : Rule :=
  .sequence
    [keyword word, ws1,
      .capture field (.sequence
        [.capture "low" axisTextRule,
          .optional (.sequence [lit "-->", ws, .capture "high" restOfLine])])]

/-- A point: its name, its class, its coordinates and its style. -/
def pointRule : Rule :=
  .capture "point" (.sequence
    [.capture "name" (text1Until ":\r\n" "point name"),
      .optional (.sequence [lit ":::", .capture "class" word]),
      ws, lit ":", ws, lit "[", ws, .capture "x" number, ws, lit ",", ws, .capture "y" number, ws,
      lit "]", .optional (.sequence [ws1, .capture "style" restOfLine])])

/-- A caption, an axis, the name of a quadrant, a class or a point. -/
def statementRule : Rule :=
  .labelled "statement" (.choice
    [title "title",
      accessibility "acc_title" "acc_descr",
      axisRule "x-axis" "x_axis",
      axisRule "y-axis" "y_axis",
      .sequence
        [lit "quadrant-", .capture "quadrant" (oneOf "1234"), ws1, .capture "text" restOfLine],
      .sequence
        [keyword "classDef", ws1,
          .capture "class_def"
            (.sequence [.capture "name" word, ws1, .capture "style" restOfLine])],
      pointRule])

/-- The grammar of quadrant charts. -/
def grammar : Grammar where
  name := "quadrantChart"
  root :=
    document (keyword "quadrantChart")
      (.capture "statements" (statementLines (.ref "statement")))
  rules := [("statement", statementRule)]

end

/-- What a document can say that no quadrant chart shows. -/
inductive Fallacy where
  | malformedStyle (text : String)
  | outside (name : String) (x y : Float)
  | undefinedClass (name : String)

instance : Complaint Fallacy where
  message
    | .malformedStyle text => "malformed style '" ++ text ++ "'"
    | .outside name x y =>
      "point '" ++ name ++ "' at [" ++ decimalText x ++ ", " ++ decimalText y ++
        "] lies outside [0, 1]"
    | .undefinedClass name => "class '" ++ name ++ "' is not defined"

/-- A statement of a document. -/
inductive Statement where
  | caption (c : Caption)
  | xAxis (a : Axis)
  | yAxis (a : Axis)
  | quadrant (number : Nat) (text : String)
  | point (p : Point)
  | classDef (name : String) (style : Properties)

/-- The axis in a field. -/
def axis (t : Tree) (field : String) : Reading Fallacy Axis := do
  let axis ← t.needGroup field
  return ⟨← axis.needString "low", axis.string? "high"⟩

/-- The properties that a point or a class gives. -/
def style (t : Tree) : Reading Fallacy Properties :=
  match t.filled? "style" with
  | some raw => orComplain (keyValues? raw) (t.startOf "style") (.malformedStyle raw)
  | none => .ok []

/-- The statements of quadrant charts. -/
def statements : Shapes Fallacy Statement :=
  .ofList (Captions.shapes .caption ++
    [(["x_axis"], fun t => do return .xAxis (← axis t "x_axis")),
      (["y_axis"], fun t => do return .yAxis (← axis t "y_axis")),
      (["quadrant", "text"], fun t => do
        return .quadrant (← t.needNumber Numeral.index? "quadrant") (← t.needText "text")),
      (["point"], fun t => do
        let point ← t.needGroup "point"
        let name ← point.needString "name"
        let x ← point.needNumber Numeral.float? "x"
        let y ← point.needNumber Numeral.float? "y"
        let p : Point := { name := name, x, y }
        if !p.inRange then complain point.span.offset (.outside name x y)
        return .point { p with inClass := point.filled? "class", style := ← style point }),
      (["class_def"], fun t => do
        let definition ← t.needGroup "class_def"
        return .classDef (← definition.needText "name") (← style definition))])

/-- The chart after a statement. -/
def Chart.apply (c : Chart) : Statement → Chart
  | .caption caption => { c with captions := c.captions.set caption }
  | .xAxis a => { c with xAxis := some a }
  | .yAxis a => { c with yAxis := some a }
  | .quadrant number text => (c.nameQuadrant? number text).getD c
  | .point p => c.addPoint p
  | .classDef name style => c.defineClass name style

/-- Complains about a point whose class the chart does not define. -/
def Chart.checkClass (c : Chart) : Nat × Statement → Reading Fallacy Unit
  | (offset, .point p) =>
    match p.inClass.filter fun name => (c.classes.get? name).isNone with
    | some name => complain offset (.undefinedClass name)
    | none => .ok ()
  | _ => .ok ()

/-- Reads a quadrant chart from the syntax tree of its document. -/
def read (t : Tree) : Reading Fallacy Chart := do
  let placed ← statements.readPlaced (t.list "statements")
  let chart := (placed.map (·.2)).foldl Chart.apply {}
  placed.forM chart.checkClass
  return chart

end DiagramText.Quadrant
