import DiagramText.Table
import DiagramText.Text.Separated
import DiagramText.Value

/-!
# Styles

A style gives values to properties. Laying one style over another replaces the values of the
properties that both have and adds the others at the end.
-/

namespace DiagramText

/-- The properties of an element with their values. -/
structure Style where
  properties : Table String := []
deriving DecidableEq, Inhabited

namespace Style

/-- Reads a style from its text. -/
def ofText? (raw : String) : Option Style := (styleProperties? raw).map Style.mk

/-- The value of a property, the first one where it is given twice. -/
def get? (s : Style) (property : String) : Option String := Table.get? s.properties property

/-- Whether no property is given. -/
def isEmpty (s : Style) : Bool := s.properties.isEmpty

/-- The style `top` laid over `s`. -/
def merge (s top : Style) : Style :=
  ⟨top.properties.foldl (fun properties (key, value) => Table.insert properties key value)
    s.properties⟩

/-- The text of a style. -/
def text (s : Style) : String :=
  ",".intercalate (s.properties.map fun (key, value) => key ++ ":" ++ value)

instance : Written Style := ⟨fun s => .object [("properties", write s.properties)]⟩

end Style

/-- How a line is drawn. -/
inductive LineStyle where
  | solid | dashed | thick | invisible
deriving DecidableEq, Inhabited

/-- The name of the style of a line in a graph for layout. -/
def LineStyle.name : LineStyle → String
  | solid => "solid"
  | dashed => "dashed"
  | thick => "thick"
  | invisible => "invisible"

instance : Written LineStyle where
  write
    | .solid => .text "Solid"
    | .dashed => .text "Dashed"
    | .thick => .text "Thick"
    | .invisible => .text "Invisible"

end DiagramText
