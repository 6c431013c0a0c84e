import DiagramText.Kind

/-!
# Settings of the log

How much the log says and in which format. A setting that is not given has its default.
-/

namespace DiagramText

/-- A format of the log. -/
inductive LogFormat where
  | compact | pretty | json
deriving DecidableEq, Inhabited

namespace LogFormat

/-- All formats. -/
def all : List LogFormat := [compact, pretty, json]

/-- The name of a format. -/
def name : LogFormat → String
  | compact => "compact"
  | pretty => "pretty"
  | json => "json"

/-- The format that a word names, in any case of letters. -/
def ofWord (word : String) : Except UnknownWord LogFormat :=
  match all.find? fun format => sameAnyCase format.name word with
  | some format => .ok format
  | none => .error ⟨"log format", word⟩

/-- The format to use where this one is asked for. -/
def resolve (asked : Option String) : Except UnknownWord LogFormat :=
  ofWord (asked.getD "compact")

/-- The complaint about a format that is asked for. -/
def complaint (u : UnknownWord) : String := "Invalid log format: " ++ u.message

/-- A format is found under its name. -/
theorem ofWord_name (format : LogFormat) : ofWord format.name = .ok format := by
  cases format <;> rfl

end LogFormat

/-- The level to use where this one is asked for. -/
def logLevel (asked : Option String) : String := asked.getD "info"

end DiagramText
