import DiagramText.Value

/-!
# Issues

What can be wrong with a model that was read without an error. Only a reference to something that
nothing declares may be counted as an error of the document.
-/

namespace DiagramText

/-- A fault of a model. -/
inductive Issue where
  | empty
  | danglingReference (context id : String)
  | invalidEntity (id reason : String)
  | duplicateId (id : String)
deriving DecidableEq, Inhabited

namespace Issue

/-- The issue as a message. -/
def message : Issue → String
  | empty => "diagram has no entities"
  | danglingReference context id => context ++ " references undeclared '" ++ id ++ "'"
  | invalidEntity id reason => "'" ++ id ++ "' is invalid: " ++ reason
  | duplicateId id => "'" ++ id ++ "' is declared more than once"

/-- Whether the issue is a reference to something undeclared. -/
def isDangling : Issue → Bool
  | danglingReference _ _ => true
  | _ => false

instance : Written Issue where
  write
    | empty => .object [("issue", .text "empty")]
    | danglingReference context id =>
      .object [("issue", .text "dangling_reference"), ("context", .text context), ("id", .text id)]
    | invalidEntity id reason =>
      .object [("issue", .text "invalid_entity"), ("id", .text id), ("reason", .text reason)]
    | duplicateId id => .object [("issue", .text "duplicate_id"), ("id", .text id)]

/-- The issue of a diagram with `count` entities, if that is none. -/
def ofCount (count : Nat) : List Issue := if count = 0 then [empty] else []

/-- An issue for every id that occurs earlier in the list. -/
def repeated (ids : List String) : List Issue :=
  go [] ids
where
  /-- The issues of `ids` where `seen` came before. -/
  go (seen : List String) : List String → List Issue
    | [] => []
    | id :: ids => if seen.contains id then duplicateId id :: go seen ids else go (id :: seen) ids

end Issue

end DiagramText
