import DiagramText.Issue
import DiagramText.Peg.Grammar
import DiagramText.Peg.Lexeme
import DiagramText.Reading

/-!
# Information diagrams

A diagram that shows the version of this library, and says whether to show more.
-/

namespace DiagramText.Info

/-- The version of this library. -/
def libraryVersion : String := "0.1.0"

/-- What an information diagram shows. -/
structure Notice where
  version : String := libraryVersion
  showInfo : Bool := false
deriving DecidableEq, Inhabited

namespace Notice

/-- An information diagram is a single entity. -/
def entityCount (_ : Notice) : Nat := 1

/-- Nothing can be wrong with an information diagram. -/
def issues (_ : Notice) : List Issue := []

end Notice

instance : Written Notice where
  write n := .object [("version", write n.version), ("show_info", write n.showInfo)]

open Peg in
/-- The grammar of information diagrams. -/
def grammar : Grammar where
  name := "info"
  root :=
    let showInfo : Rule := .capture "show_info" (keyword "showInfo")
    document
      (.sequence [keywordAnyCase "info", .optional (.sequence [ws1, showInfo])])
      (.sequence
        [many blankLine, .optional (.sequence [ws, showInfo, eol]), many blankLine, ws])
  rules := []

/-- Reads an information diagram from the syntax tree of its document. -/
def read (t : Tree) : Reading Empty Notice := .ok { showInfo := t.has "show_info" }

end DiagramText.Info
