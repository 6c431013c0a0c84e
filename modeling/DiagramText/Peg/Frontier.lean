/-!
# The frontier of a parse

A failed parse is reported where it got furthest. The frontier keeps the greatest offset at which
something was expected in vain and what was expected there, each description once and in the order
in which it was first met. It also remembers whether some rule was refused because references were
nested too deeply; as long as none was, the limit on the nesting had no part in the parse.
-/

namespace DiagramText.Peg

/-- Where a parse got stuck furthest, and on what. -/
structure Frontier where
  offset : Nat := 0
  expected : List String := []
  refused : Bool := false
deriving DecidableEq, Inhabited

namespace Frontier

/-- Something was expected at `offset`: this counts at the frontier or beyond it. -/
def add (f : Frontier) (offset : Nat) (description : String) : Frontier :=
  if offset < f.offset then f
  else if f.offset < offset then ⟨offset, [description], f.refused⟩
  else if f.expected.contains description then f
  else ⟨f.offset, f.expected ++ [description], f.refused⟩

/-- What is added behind the frontier is dropped. -/
theorem add_of_lt {f : Frontier} {offset : Nat} (h : offset < f.offset) (description : String) :
    f.add offset description = f := by
  simp [add, h]

/-- What is added in front of the frontier moves it. -/
theorem add_of_gt {f : Frontier} {offset : Nat} (h : f.offset < offset) (description : String) :
    f.add offset description = ⟨offset, [description], f.refused⟩ := by
  simp [add, h, Nat.not_lt.2 (Nat.le_of_lt h)]

end Frontier

/-- Why an input does not belong to a grammar: what was expected, and where. -/
structure Failure where
  offset : Nat
  expected : List String
deriving DecidableEq, Inhabited

namespace Failure

/-- The expectations as a phrase: `a, b or c`. -/
def description (f : Failure) : String :=
  match f.expected.reverse with
  | [] => "valid input"
  | [only] => only
  | last :: others => ", ".intercalate others.reverse ++ " or " ++ last

/-- The failure as a message. -/
def message (f : Failure) : String :=
  "expected " ++ f.description ++ " at offset " ++ toString f.offset

end Failure

/-- The failure that a frontier stands for. -/
def Frontier.failure (f : Frontier) : Failure := ⟨f.offset, f.expected⟩

end DiagramText.Peg
