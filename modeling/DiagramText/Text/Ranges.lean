/-!
# Ranges of code points

A property of characters is written as a flat list of numbers, two for each range: its first and its
last code point.
-/

namespace DiagramText

/-- Whether `n` lies in one of the ranges of the list. -/
def inRanges (n : Nat) : List Nat → Bool
  | first :: last :: rest => (first ≤ n && n ≤ last) || inRanges n rest
  | _ => false

end DiagramText
