import DiagramText.Kind
import DiagramText.Text.Blank
import DiagramText.Peg.Frontier
import DiagramText.Text.Offset
import DiagramText.Text.Width

/-!
# Diagnostics

A failure to parse, placed in its document for a reader: the line and the column, counted in
characters from one, the text of the line, and a caret below it that stands under the character at
fault when the characters before it are as wide as a terminal shows them.
-/

namespace DiagramText

/-- A failure to parse and its place in the document. -/
structure Diagnostic where
  kind : Kind
  offset : Nat
  line : Nat
  column : Nat
  sourceLine : String
  caret : String
  expected : String
deriving DecidableEq, Inhabited

namespace Diagnostic

/-- The characters of the last line of `cs`. -/
def lastLine (cs : List Char) : List Char := (cs.reverse.takeWhile (· != '\n')).reverse

/-- Places a failure in its document. -/
def locate (kind : Kind) (source : String) (failure : Peg.Failure) : Diagnostic :=
  let before := charsBefore source failure.offset
  let after := source.toList.drop before.length
  let start := lastLine before
  let line := Chars.trimEndBy (· == '\r') (start ++ after.takeWhile (· != '\n'))
  { kind
    offset := before.length
    line := before.count '\n' + 1
    column := start.length + 1
    sourceLine :=
      if line.isEmpty && after.isEmpty then "(end of input)" else String.ofList line
    caret := String.ofList (List.replicate (displayWidth start) ' ' ++ ['^'])
    expected := failure.description }

/-- The diagnostic as a message of one line. -/
def message (d : Diagnostic) : String :=
  d.kind.id ++ " parse error at line " ++ toString d.line ++ ", column " ++ toString d.column ++
    ": expected " ++ d.expected

/-- The diagnostic with the line at fault and the caret below it. -/
def render (d : Diagnostic) : String :=
  let number := toString d.line
  let pad := String.ofList (List.replicate number.length ' ')
  d.message ++ "\n  " ++ number ++ " | " ++ d.sourceLine ++ "\n  " ++ pad ++ " | " ++ d.caret

instance : Written Diagnostic where
  write d :=
    .object [("dialect", write d.kind), ("offset", write d.offset), ("line", write d.line),
      ("column", write d.column), ("source_line", write d.sourceLine), ("caret", write d.caret),
      ("expected", write d.expected)]

end Diagnostic

end DiagramText
