/-!
# Written models

The form in which models are handed on: a tree of objects, lists and plain values. Every type of a
model says how it is written through `Written`. The order of an object's fields carries no meaning.
-/

namespace DiagramText

/-- A written value. -/
inductive Value where
  | null
  | bool (b : Bool)
  | integer (n : Int)
  | float (x : Float)
  | text (s : String)
  | list (items : List Value)
  | object (fields : List (String × Value))

instance : Inhabited Value := ⟨.null⟩

/-- The types whose values can be written. -/
class Written (α : Type) where
  /-- How a value is written. -/
  write : α → Value

export Written (write)

instance : Written Value := ⟨id⟩
instance : Written Bool := ⟨.bool⟩
instance : Written Nat := ⟨fun n => .integer n⟩
instance : Written Int := ⟨.integer⟩
instance : Written Float := ⟨.float⟩
instance : Written String := ⟨.text⟩
instance [Written α] : Written (List α) := ⟨fun items => .list (items.map write)⟩
instance [Written α] : Written (Option α) := ⟨fun a => a.elim .null write⟩
instance [Written α] [Written β] : Written (α × β) := ⟨fun (a, b) => .list [write a, write b]⟩

/-- An object with one field, which tells the case of a sum and holds its contents. -/
def Value.case [Written α] (name : String) (contents : α) : Value :=
  .object [(name, write contents)]

end DiagramText
