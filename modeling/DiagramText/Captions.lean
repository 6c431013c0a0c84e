import DiagramText.Reading
import DiagramText.Value

/-!
# Captions

The texts that may accompany a diagram of any kind: its title, and a title and a description for
readers who cannot see it.
-/

namespace DiagramText

/-- The texts that accompany a diagram. -/
structure Captions where
  title : Option String := none
  accTitle : Option String := none
  accDescr : Option String := none
deriving DecidableEq, Inhabited

/-- A statement that sets one of the captions. -/
inductive Caption where
  | title (text : String)
  | accTitle (text : String)
  | accDescr (text : String)
deriving DecidableEq, Inhabited

namespace Captions

/-- The captions with one set. -/
def set (c : Captions) : Caption → Captions
  | .title text => { c with title := some text }
  | .accTitle text => { c with accTitle := some text }
  | .accDescr text => { c with accDescr := some text }

/-- The fields of a model that hold its accessible captions. -/
def accessibleFields (c : Captions) : List (String × Value) :=
  [("acc_title", write c.accTitle), ("acc_descr", write c.accDescr)]

/-- The fields of a model that hold its captions. -/
def fields (c : Captions) : List (String × Value) := ("title", write c.title) :: c.accessibleFields

/-- How statements are read that hold a caption without decoding it. -/
def shapes (wrap : Caption → α) : List (List String × (Tree → Reading ε α)) :=
  [(["title"], fun t => do return wrap (.title (← t.needText "title")))] ++ accessibleShapes wrap
where
  /-- The shapes of accessible captions. -/
  accessibleShapes (wrap : Caption → α) : List (List String × (Tree → Reading ε α)) :=
    [(["acc_title"], fun t => do return wrap (.accTitle (← t.needText "acc_title"))),
      (["acc_descr"], fun t => do return wrap (.accDescr (← t.needText "acc_descr")))]

end Captions

end DiagramText
