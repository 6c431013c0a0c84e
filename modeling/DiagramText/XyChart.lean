import DiagramText.Captions
import DiagramText.Extremum
import DiagramText.Issue
import DiagramText.Peg.Grammar
import DiagramText.Peg.Lexeme
import DiagramText.Text.Decimal
import DiagramText.Text.Separated

/-!
# XY charts

Series of values, drawn as bars or lines over a horizontal axis. That axis is either a list of
categories, and then every series has a value for each, or a range of numbers.
-/

namespace DiagramText.XyChart

/-- Which way the horizontal axis runs. -/
inductive Orientation where
  | vertical | horizontal
deriving DecidableEq, Inhabited

/-- The horizontal axis. -/
inductive XAxis where
  | band (title : Option String) (categories : List String)
  | linear (title : Option String) (range : Option (Float × Float))

namespace XAxis

/-- The title of the axis. -/
def title : XAxis → Option String
  | band title _ => title
  | linear title _ => title

/-- The categories of the axis, if it has any. -/
def categories? : XAxis → Option (List String)
  | band _ categories => some categories
  | linear _ _ => none

end XAxis

/-- The vertical axis. -/
structure YAxis where
  title : Option String := none
  range : Option (Float × Float) := none

/-- How a series is drawn. -/
inductive Mark where
  | bar | line
deriving DecidableEq, Inhabited

/-- A series of values. -/
structure Series where
  mark : Mark
  name : Option String
  values : List Float

/-- An XY chart. -/
structure Chart where
  captions : Captions := {}
  orientation : Orientation := .vertical
  xAxis : Option XAxis := none
  yAxis : Option YAxis := none
  series : List Series := []

namespace Chart

/-- The chart with one more series. -/
def addSeries (c : Chart) (s : Series) : Chart := { c with series := c.series ++ [s] }

/-- The categories of the horizontal axis, if it has any. -/
def categories? (c : Chart) : Option (List String) := c.xAxis.bind XAxis.categories?

/-- The range of the vertical axis: the one that is set, or from the least to the greatest value. -/
def valueRange (c : Chart) : Option (Float × Float) :=
  match c.yAxis.bind YAxis.range with
  | some range => some range
  | none =>
    match c.series.flatMap Series.values with
    | [] => none
    | x :: xs => some (xs.foldl lesser x, xs.foldl greater x)

/-- The series with too few or too many values for the categories, and their places. -/
def mismatched (c : Chart) : List (Nat × Series) :=
  (c.series.mapIdx fun i s => (i, s)).filter fun (_, s) =>
    c.categories?.any (·.length != s.values.length)

/-- The number of series. -/
def entityCount (c : Chart) : Nat := c.series.length

/-- What is wrong with the chart. -/
def issues (c : Chart) : List Issue :=
  let count := (c.categories?.getD []).length
  Issue.ofCount c.series.length ++
    c.mismatched.map fun (i, s) =>
      .invalidEntity (s.name.getD ("series " ++ toString i))
        (toString s.values.length ++ " values for " ++ toString count ++ " categories")

end Chart

instance : Written Orientation where
  write
    | .vertical => .text "Vertical"
    | .horizontal => .text "Horizontal"

instance : Written XAxis where
  write
    | .band title categories =>
      .object [("type", .text "band"), ("title", write title), ("categories", write categories)]
    | .linear title range =>
      .object [("type", .text "linear"), ("title", write title), ("range", write range)]

instance : Written YAxis where
  write a := .object [("title", write a.title), ("range", write a.range)]

instance : Written Mark where
  write
    | .bar => .text "bar"
    | .line => .text "line"

instance : Written Series where
  write s := .object [("kind", write s.mark), ("name", write s.name), ("values", write s.values)]

instance : Written Chart where
  write c :=
    .object (c.captions.fields ++
      [("orientation", write c.orientation), ("x_axis", write c.xAxis),
        ("y_axis", write c.yAxis), ("series", write c.series)])

/-! ## Documents -/

section

open Peg

/-- The title of an axis: in quotes, or a word that does not look like a number. -/
def axisTitleRule : Rule :=
  .labelled "axis title"
    (.choice [quotedString, .sequence [.notAhead (oneOf "+-.0123456789"), word]])

/-- A category. -/
def categoryRule : Rule :=
  .capture "category" (.choice [quotedString, text1Until ",]\r\n" "category"])

/-- Categories in brackets. -/
def categoriesRule : Rule :=
  .sequence
    [.capture "categories" (lit "["), ws,
      .optional (.sequence
        [categoryRule, many (.sequence [ws, lit ",", ws, categoryRule]), ws]),
      lit "]"]

/-- A range of numbers. -/
def rangeRule : Rule :=
  .sequence [.capture "min" number, ws, lit "-->", ws, .capture "max" number]

/-- An axis with a title and a scale. -/
def axisRule (name field : String) (scale : Rule) : Rule :=
  .sequence
    [keyword name,
      .capture field (.sequence
        [.optional (.sequence [ws1, .capture "axis_title" axisTitleRule]),
          .optional (.sequence [ws, scale])])]

/-- A series: how it is drawn, its name and its values. -/
def seriesRule : Rule :=
  .sequence
    [.capture "series" (.choice [keyword "bar", keyword "line"]),
      .optional (.sequence [ws1, .capture "name" quotedString]),
      ws,
      .labelled "value list"
        (.capture "values" (.sequence [lit "[", textUntil "]\r\n", lit "]"]))]

/-- A caption, an axis or a series. -/
def statementRule : Rule :=
  .labelled "statement" (.choice
    [title "title",
      accessibility "acc_title" "acc_descr",
      axisRule "x-axis" "x_axis" (.choice [categoriesRule, rangeRule]),
      axisRule "y-axis" "y_axis" rangeRule,
      seriesRule])

/-- The keyword and the orientation. -/
def headerRule : Rule :=
  .sequence
    [.choice [keyword "xychart-beta", keyword "xychart"],
      .optional (.sequence
        [ws1,
          .capture "orientation" (.choice [keyword "horizontal", keyword "vertical"])])]

/-- The grammar of XY charts. -/
def grammar : Grammar where
  name := "xychart"
  root := document headerRule (.capture "statements" (statementLines (.ref "statement")))
  rules := [("statement", statementRule)]

end

/-- What a document can say that no XY chart shows. -/
inductive Fallacy where
  | reversedRange (low high : Float)
  | noNumbers (text : String)
  | mismatch (values categories : Nat)

instance : Complaint Fallacy where
  message
    | .reversedRange low high =>
      "axis range " ++ decimalText low ++ " --> " ++ decimalText high ++ " is reversed"
    | .noNumbers text => "'" ++ text ++ "' is not a list of numbers"
    | .mismatch values categories =>
      "series has " ++ toString values ++ " values but the x-axis has " ++
        toString categories ++ " categories"

/-- A statement of a document. -/
inductive Statement where
  | caption (c : Caption)
  | xAxis (a : XAxis)
  | yAxis (a : YAxis)
  | series (s : Series)

/-- The range of an axis, where both of its ends are given. -/
def range (axis : Tree) : Reading Fallacy (Option (Float × Float)) := do
  let low ← axis.number? Numeral.float? "min"
  let high ← axis.number? Numeral.float? "max"
  match low, high with
  | some low, some high =>
    if low > high then complain (axis.startOf "min") (.reversedRange low high)
    return some (low, high)
  | _, _ => return none

/-- The horizontal axis of a statement. -/
def xAxis (t : Tree) : Reading Fallacy XAxis :=
  match t.tree? "x_axis" with
  | none => .ok (.linear none none)
  | some axis =>
    let title := axis.string? "axis_title"
    if axis.has "categories" then
      .ok (.band title ((axis.getAll "category").map fun node => unquote (trim node.text)))
    else do return .linear title (← range axis)

/-- The vertical axis of a statement. -/
def yAxis (t : Tree) : Reading Fallacy YAxis :=
  match t.tree? "y_axis" with
  | none => .ok {}
  | some axis => do return ⟨axis.string? "axis_title", ← range axis⟩

/-- The statements of XY charts. -/
def statements : Shapes Fallacy Statement :=
  .ofList
    ([(["title"], fun t => do return .caption (.title (← t.needString "title"))),
      (["x_axis"], fun t => do return .xAxis (← xAxis t)),
      (["y_axis"], fun t => do return .yAxis (← yAxis t)),
      (["series", "values"], fun t => do
        let mark := if (← t.needText "series") = "bar" then Mark.bar else .line
        let text ← t.needText "values"
        let values ← orComplain (numberList? text) (t.startOf "values") (.noNumbers text)
        return .series ⟨mark, t.string? "name", values⟩)] ++
      Captions.shapes.accessibleShapes .caption)

/-- The chart after a statement. -/
def Chart.apply (c : Chart) : Statement → Chart
  | .caption caption => { c with captions := c.captions.set caption }
  | .xAxis a => { c with xAxis := some a }
  | .yAxis a => { c with yAxis := some a }
  | .series s => c.addSeries s

/-- The offset of a statement that is a series. -/
def seriesOffset? : Nat × Statement → Option Nat
  | (offset, .series _) => some offset
  | _ => none

/-- Reads an XY chart from the syntax tree of its document. -/
def read (t : Tree) : Reading Fallacy Chart := do
  let placed ← statements.readPlaced (t.list "statements")
  let start : Chart :=
    { orientation := if t.text? "orientation" = some "horizontal" then .horizontal else .vertical }
  let chart := (placed.map (·.2)).foldl Chart.apply start
  match chart.mismatched with
  | [] => return chart
  | (i, s) :: _ =>
    complain ((placed.filterMap seriesOffset?).getD i 0)
      (.mismatch s.values.length (chart.categories?.getD []).length)

end DiagramText.XyChart
