import DiagramText.Captions
import DiagramText.Issue
import DiagramText.Peg.Grammar
import DiagramText.Peg.Lexeme
import DiagramText.Text.Decimal

/-!
# Pie charts

A pie chart has slices, each with a label of its own and a positive value. A label that comes again
is ignored. The share of a slice is its part of the sum of all values, in percent.
-/

namespace DiagramText.Pie

/-- A slice of a pie. -/
structure Slice where
  label : String
  value : Float

/-- A pie chart. -/
structure Chart where
  captions : Captions := {}
  showData : Bool := false
  slices : List Slice := []

namespace Chart

/-- The slice with a label. -/
def slice? (c : Chart) (label : String) : Option Slice := c.slices.find? (·.label == label)

/-- The chart with one more slice; none where the label is taken. -/
def insert? (c : Chart) (s : Slice) : Option Chart :=
  if (c.slice? s.label).isSome then none else some { c with slices := c.slices ++ [s] }

/-- The sum of the values. -/
def total (c : Chart) : Float := (c.slices.map Slice.value).foldl (· + ·) 0

/-- The label and the share of each slice. -/
def percentages (c : Chart) : List (String × Float) :=
  let total := c.total
  c.slices.map fun s => (s.label, if total > 0 then s.value / total * 100 else 0)

/-- The number of slices. -/
def entityCount (c : Chart) : Nat := c.slices.length

/-- What is wrong with the chart. -/
def issues (c : Chart) : List Issue :=
  Issue.ofCount c.slices.length ++
    c.slices.filterMap fun s =>
      if s.value.isFinite && s.value > 0 then none
      else some (.invalidEntity s.label ("value " ++ decimalText s.value ++ " is not positive"))

end Chart

instance : Written Slice where
  write s := .object [("label", write s.label), ("value", write s.value)]

instance : Written Chart where
  write c :=
    .object (c.captions.fields ++ [("show_data", write c.showData), ("slices", write c.slices)])

/-! ## Documents -/

section

open Peg

/-- A caption or a slice. -/
def statementRule : Rule :=
  .labelled "statement" (.choice
    [title "title",
      accessibility "acc_title" "acc_descr",
      .capture "slice" (.sequence
        [.capture "label" quotedString, ws, .labelled "':'" (lit ":"), ws,
          .capture "value" number])])

/-- The keyword, the wish to show the values, and a title. -/
def headerRule : Rule :=
  .sequence
    [keyword "pie",
      .optional (.sequence [ws1, .capture "show_data" (keyword "showData")]),
      .optional (.sequence [ws1, title "title"])]

/-- The grammar of pie charts. -/
def grammar : Grammar where
  name := "pie"
  root := document headerRule (.capture "statements" (statementLines (.ref "statement")))
  rules := [("statement", statementRule)]

end

/-- What a document can say that no pie chart shows. -/
inductive Fallacy where
  | notPositive (value : Float)

instance : Complaint Fallacy where
  message
    | .notPositive value => "slice value " ++ decimalText value ++ " must be positive"

/-- A statement of a document. -/
inductive Statement where
  | caption (c : Caption)
  | slice (s : Slice)

/-- The statements of pie charts. -/
def statements : Shapes Fallacy Statement :=
  .ofList (Captions.shapes .caption ++
    [(["slice"], fun t => do
      let slice ← t.needGroup "slice"
      let value ← slice.needNumber Numeral.float? "value"
      if value ≤ 0 then complain (slice.startOf "value") (.notPositive value)
      return .slice ⟨← slice.needString "label", value⟩)])

/-- The chart after a statement. -/
def Chart.apply (c : Chart) : Statement → Chart
  | .caption caption => { c with captions := c.captions.set caption }
  | .slice s => (c.insert? s).getD c

/-- Reads a pie chart from the syntax tree of its document. -/
def read (t : Tree) : Reading Fallacy Chart := do
  let start : Chart := { captions := { title := t.filled? "title" }, showData := t.has "show_data" }
  return (← statements.readAll (t.list "statements")).foldl Chart.apply start

end DiagramText.Pie
