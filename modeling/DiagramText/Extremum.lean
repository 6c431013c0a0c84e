/-!
# Least and greatest floats

The lesser and the greater of two floats, where something that is not a number gives way to a number.
Of two equal floats the second one is taken, which tells only the two zeros apart.
-/

namespace DiagramText

/-- The lesser of two floats. -/
def lesser (a b : Float) : Float := if a.isNaN then b else if b.isNaN || a < b then a else b

/-- The greater of two floats. -/
def greater (a b : Float) : Float := if a.isNaN then b else if b.isNaN || a > b then a else b

end DiagramText
