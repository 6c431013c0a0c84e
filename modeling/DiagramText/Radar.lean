import DiagramText.Captions
import DiagramText.Extremum
import DiagramText.Issue
import DiagramText.Peg.Grammar
import DiagramText.Peg.Lexeme
import DiagramText.Text.Separated

/-!
# Radar charts

Curves over axes that meet in a point. A curve gives its values in the order of the axes, or each
under the id of its axis; either way it has one value for every axis of the document. Axes may be
declared after the curves.
-/

namespace DiagramText.Radar

/-- An axis. -/
structure Axis where
  id : String
  label : String
deriving DecidableEq, Inhabited

/-- A curve with its values in the order of the axes. -/
structure Curve where
  id : String
  label : String
  values : List Float

/-- The shape of the grid. -/
inductive Graticule where
  | circle | polygon
deriving DecidableEq, Inhabited

/-- How the chart is drawn. -/
structure Options where
  showLegend : Bool := true
  ticks : Nat := 5
  max : Option Float := none
  min : Float := 0
  graticule : Graticule := .circle

/-- A radar chart. -/
structure Chart where
  captions : Captions := {}
  axes : List Axis := []
  curves : List Curve := []
  options : Options := {}

namespace Chart

/-- The place of the axis with an id. -/
def axisIndex? (c : Chart) (id : String) : Option Nat := c.axes.findIdx? (·.id == id)

/-- The chart with one more axis; none where its id is taken. -/
def addAxis? (c : Chart) (axis : Axis) : Option Chart :=
  if (c.axisIndex? axis.id).isSome then none else some { c with axes := c.axes ++ [axis] }

/-- The chart with one more curve. -/
def addCurve (c : Chart) (curve : Curve) : Chart := { c with curves := c.curves ++ [curve] }

/-- The first curve with an id. -/
def curve? (c : Chart) (id : String) : Option Curve := c.curves.find? (·.id == id)

/-- The value at the rim: the one that is set, or the greatest of all values. -/
def scaleMax (c : Chart) : Float :=
  c.options.max.getD ((c.curves.flatMap Curve.values).foldl greater c.options.min)

/-- The number of curves. -/
def entityCount (c : Chart) : Nat := c.curves.length

/-- What is wrong with the chart. -/
def issues (c : Chart) : List Issue :=
  Issue.ofCount c.curves.length ++
    (c.curves.filterMap fun curve =>
      if curve.values.length = c.axes.length then none
      else some (.invalidEntity curve.id
        (toString curve.values.length ++ " values for " ++ toString c.axes.length ++ " axes"))) ++
    if c.options.max.any (· ≤ c.options.min) then [.invalidEntity "scale" "max is not above min"]
    else []

end Chart

instance : Written Axis where
  write a := .object [("id", write a.id), ("label", write a.label)]

instance : Written Curve where
  write c := .object [("id", write c.id), ("label", write c.label), ("values", write c.values)]

instance : Written Graticule where
  write
    | .circle => .text "circle"
    | .polygon => .text "polygon"

instance : Written Options where
  write o :=
    .object [("show_legend", write o.showLegend), ("ticks", write o.ticks), ("max", write o.max),
      ("min", write o.min), ("graticule", write o.graticule)]

instance : Written Chart where
  write c :=
    .object (c.captions.fields ++
      [("axes", write c.axes), ("curves", write c.curves), ("options", write c.options)])

/-! ## Documents -/

section

open Peg

/-- An id, which a label in brackets may follow. -/
def headRule : Rule :=
  .sequence
    [.capture "id" word,
      .optional (.sequence [lit "[", .capture "label" (textUntil "]\r\n"), lit "]"])]

/-- An axis. -/
def axisRule : Rule := .capture "axis" headRule

/-- A curve with its values in braces. -/
def curveRule : Rule :=
  .capture "curve" (.sequence
    [headRule, ws, lit "\x7b", .capture "values" (textUntil "\x7d\r\n"), lit "\x7d"])

/-- A keyword and items with commas between them. -/
def listing (name : String) (item : Rule) : Rule :=
  .sequence [keyword name, ws1, item, many (.sequence [ws, lit ",", ws, item])]

/-- An option with its value. -/
def optionRule : Rule :=
  .choice
    [.sequence
      [.capture "option" (keyword "showLegend"),
        .optional (.sequence
          [ws1, .capture "value" (.choice [keyword "true", keyword "false"])])],
      .sequence
        [.capture "option"
          (.choice [keyword "max", keyword "min", keyword "ticks", keyword "graticule"]),
          ws1, .capture "value" (.choice [number, keyword "circle", keyword "polygon"])]]

/-- A caption, axes, curves or an option. -/
def statementRule : Rule :=
  .labelled "statement" (.choice
    [title "title",
      accessibility "acc_title" "acc_descr",
      listing "axis" axisRule,
      listing "curve" curveRule,
      optionRule])

/-- The grammar of radar charts. -/
def grammar : Grammar where
  name := "radar"
  root :=
    document (.choice [keyword "radar-beta", keyword "radar"])
      (.capture "statements" (statementLines (.ref "statement")))
  rules := [("statement", statementRule)]

end

/-- What a document can say that no radar chart shows. -/
inductive Fallacy where
  | malformedValues (text : String)
  | notNumber (text : String)
  | invalidOption (value name : String)
  | repeatedAxis (id : String)
  | wrongCount (curve : String) (values axes : Nat)
  | unknownAxis (curve axis : String)
  | noValue (curve axis : String)
deriving DecidableEq

instance : Complaint Fallacy where
  message
    | .malformedValues text => "malformed curve values '" ++ text ++ "'"
    | .notNumber text => "'" ++ text ++ "' is not a number"
    | .invalidOption value name => "invalid value '" ++ value ++ "' for " ++ name
    | .repeatedAxis id => "axis '" ++ id ++ "' is declared more than once"
    | .wrongCount curve values axes =>
      "curve '" ++ curve ++ "' has " ++ toString values ++ " values but there are " ++
        toString axes ++ " axes"
    | .unknownAxis curve axis => "curve '" ++ curve ++ "' names unknown axis '" ++ axis ++ "'"
    | .noValue curve axis => "curve '" ++ curve ++ "' has no value for axis '" ++ axis ++ "'"

/-- The values of a curve as its document gives them. -/
inductive Points (α : Type) where
  | positional (values : List α)
  | keyed (pairs : List (String × α))

/-- A curve as its document gives it. -/
structure Sketch where
  id : String
  label : String
  points : Points Float

/-- A statement of a document. -/
inductive Statement where
  | caption (c : Caption)
  | axes (axes : List Axis)
  | curves (curves : List Sketch)
  | option (change : Options → Options)

/-- The id and the label of an axis or a curve. -/
def head (t : Tree) : Reading Fallacy (String × String) := do
  let id ← t.needText "id"
  return (id, (t.string? "label").getD id)

/-- The values of a curve. -/
def points (curve : Tree) : Reading Fallacy (Points Float) :=
  let text := (curve.filled? "values").getD ""
  let offset := curve.startOf "values"
  match numberList? text with
  | some values => .ok (.positional values)
  | none => do
    let pairs ← orComplain (keyValues? text) offset (.malformedValues text)
    return .keyed (← pairs.mapM fun (axis, value) => do
      return (axis, ← orComplain (Numeral.float? value) offset (.notNumber value)))

/-- The change that an option makes. -/
def option (t : Tree) : Reading Fallacy (Options → Options) := do
  let name ← t.needText "option"
  let value := t.filled? "value"
  let need {α : Type} (a : Option α) : Reading Fallacy α :=
    orComplain a t.span.offset (.invalidOption (value.getD "") name)
  match name with
  | "showLegend" => return ({ · with showLegend := value != some "false" })
  | "graticule" =>
    match value with
    | some "circle" => return ({ · with graticule := .circle })
    | some "polygon" => return ({ · with graticule := .polygon })
    | _ => need none
  | "ticks" =>
    let ticks ← need (value.bind Numeral.word?)
    return ({ · with ticks })
  | "max" =>
    let max ← need (value.bind Numeral.float?)
    return ({ · with max := some max })
  | _ =>
    let min ← need (value.bind Numeral.float?)
    return ({ · with min })

/-- The statements of radar charts. -/
def statements : Shapes Fallacy Statement :=
  .ofList
    ([(["title"], fun t => do return .caption (.title (← t.needString "title"))),
      (["axis"], fun t => do
        return .axes (← ((t.getAll "axis").filterMap Node.tree?).mapM fun axis => do
          let (id, label) ← head axis
          return ⟨id, label⟩)),
      (["curve"], fun t => do
        return .curves (← ((t.getAll "curve").filterMap Node.tree?).mapM fun curve => do
          let (id, label) ← head curve
          return ⟨id, label, ← points curve⟩)),
      (["option"], fun t => do return .option (← option t))] ++
      Captions.shapes.accessibleShapes .caption)

/-- The values by places with one more, in the place of its axis. -/
def Chart.put (c : Chart) (curve : String) (values : List (Option α)) :
    String × α → Except Fallacy (List (Option α))
  | (axis, value) =>
    match c.axisIndex? axis with
    | some place => .ok (values.set place (some value))
    | none => .error (.unknownAxis curve axis)

/-- The value in the place of an axis, which may not be empty. -/
def Axis.need (axis : Axis) (curve : String) : Option α → Except Fallacy α
  | some value => .ok value
  | none => .error (.noValue curve axis.id)

/-- The values of a curve in the order of the axes. Keyed values are put in the places of their axes
one after the other. -/
def Chart.resolve (c : Chart) (curve : String) : Points α → Except Fallacy (List α)
  | .positional values =>
    if values.length = c.axes.length then .ok values
    else .error (.wrongCount curve values.length c.axes.length)
  | .keyed pairs => do
    let values ← pairs.foldlM (c.put curve) (List.replicate c.axes.length none)
    (c.axes.zip values).mapM fun (axis, value) => axis.need curve value

/-- The chart after a statement that starts at an offset; curves wait for the axes. -/
def Chart.apply (c : Chart) : Nat × Statement → Reading Fallacy Chart
  | (_, .caption caption) => .ok { c with captions := c.captions.set caption }
  | (offset, .axes axes) =>
    axes.foldlM (fun c axis => orComplain (c.addAxis? axis) offset (.repeatedAxis axis.id)) c
  | (_, .curves _) => .ok c
  | (_, .option change) => .ok { c with options := change c.options }

/-- The chart with the curves of a statement. -/
def Chart.applyCurves (c : Chart) : Nat × Statement → Reading Fallacy Chart
  | (offset, .curves curves) =>
    curves.foldlM (fun c curve =>
      match c.resolve curve.id curve.points with
      | .ok values => .ok (c.addCurve ⟨curve.id, curve.label, values⟩)
      | .error e => complain offset e) c
  | _ => .ok c

/-- Reads a radar chart from the syntax tree of its document. -/
def read (t : Tree) : Reading Fallacy Chart := do
  let placed ← statements.readPlaced (t.list "statements")
  placed.foldlM Chart.applyCurves (← placed.foldlM Chart.apply {})

end DiagramText.Radar
