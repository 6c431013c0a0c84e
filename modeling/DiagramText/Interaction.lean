import DiagramText.Value

/-!
# Interactions

What a click on an element of a diagram does: it follows a link or calls a function. A tooltip may be
shown beside it.
-/

namespace DiagramText

/-- What a click does. -/
inductive ClickAction where
  | link (url : String) (window : Option String)
  | callback (function : String)
deriving DecidableEq, Inhabited

/-- A click on the element with the id `target`. -/
structure Interaction where
  target : String
  action : ClickAction
  tooltip : Option String := none
deriving DecidableEq, Inhabited

instance : Written ClickAction where
  write
    | .link url window =>
      .case "Link" (Value.object [("url", write url), ("target", write window)])
    | .callback function => .case "Callback" (Value.object [("function", write function)])

/-- An interaction as an object in which the element stands under `key`. -/
def Interaction.writeOn (key : String) (i : Interaction) : Value :=
  .object [(key, write i.target), ("action", write i.action), ("tooltip", write i.tooltip)]

end DiagramText
