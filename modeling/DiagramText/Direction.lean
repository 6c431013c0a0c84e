import DiagramText.Kind

/-!
# Directions

The direction in which a diagram is laid out.
-/

namespace DiagramText

/-- A direction of layout. -/
inductive Direction where
  | topDown | leftRight | rightLeft | bottomUp
deriving DecidableEq, Inhabited

namespace Direction

/-- The direction that a word names, in any case of letters; both `TD` and `TB` go down. -/
def ofWord (word : String) : Except UnknownWord Direction :=
  match String.ofList ((Chars.trim word.toList).map Char.toUpper) with
  | "TD" | "TB" => .ok topDown
  | "LR" => .ok leftRight
  | "RL" => .ok rightLeft
  | "BT" => .ok bottomUp
  | _ => .error ⟨"direction", word⟩

/-- The word for the direction. -/
def word : Direction → String
  | topDown => "TD"
  | leftRight => "LR"
  | rightLeft => "RL"
  | bottomUp => "BT"

/-- Whether ranks lie below each other. -/
def isVertical : Direction → Bool
  | topDown | bottomUp => true
  | _ => false

/-- Whether ranks lie beside each other. -/
def isHorizontal : Direction → Bool
  | leftRight | rightLeft => true
  | _ => false

/-- Whether ranks run against the direction of reading. -/
def isReversed : Direction → Bool
  | rightLeft | bottomUp => true
  | _ => false

instance : Written Direction where
  write
    | topDown => .text "TopDown"
    | leftRight => .text "LeftRight"
    | rightLeft => .text "RightLeft"
    | bottomUp => .text "BottomUp"

/-- A direction is read back from its word. -/
theorem ofWord_word (d : Direction) : ofWord d.word = .ok d := by
  cases d <;> rfl

end Direction

end DiagramText
