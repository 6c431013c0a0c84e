import DiagramText.Text.Decimal
import DiagramText.Text.Numeral
import DiagramText.Value

/-!
# Durations

A duration is a number of units, written as a numeral with the letters of the unit right behind it.
Months and years count as thirty and 365 days.
-/

namespace DiagramText.Gantt

/-- A unit of time. -/
inductive TimeUnit where
  | milliseconds | seconds | minutes | hours | days | weeks | months | years
deriving DecidableEq, Inhabited

namespace TimeUnit

/-- The letters for the unit. -/
def suffix : TimeUnit → String
  | milliseconds => "ms"
  | seconds => "s"
  | minutes => "m"
  | hours => "h"
  | days => "d"
  | weeks => "w"
  | months => "M"
  | years => "y"

/-- The unit with these letters. -/
def ofSuffix? : List Char → Option TimeUnit
  | ['m', 's'] => some milliseconds
  | ['s'] => some seconds
  | ['m'] => some minutes
  | ['h'] => some hours
  | ['d'] => some days
  | ['w'] => some weeks
  | ['M'] => some months
  | ['y'] => some years
  | _ => none

/-- The name of the unit. -/
def name : TimeUnit → String
  | milliseconds => "milliseconds"
  | seconds => "seconds"
  | minutes => "minutes"
  | hours => "hours"
  | days => "days"
  | weeks => "weeks"
  | months => "months"
  | years => "years"

/-- The length of the unit in days. -/
def inDays : TimeUnit → Float
  | milliseconds => 1 / 86400000
  | seconds => 1 / 86400
  | minutes => 1 / 1440
  | hours => 1 / 24
  | days => 1
  | weeks => 7
  | months => 30
  | years => 365

/-- A unit is read back from its letters. -/
theorem ofSuffix?_suffix (u : TimeUnit) : ofSuffix? u.suffix.toList = some u := by
  cases u <;> rfl

end TimeUnit

/-- A number of units of time. -/
structure Duration where
  value : Float
  unit : TimeUnit

namespace Duration

/-- The length in days. -/
def inDays (d : Duration) : Float := d.value * d.unit.inDays

/-- The text of a duration. -/
def text (d : Duration) : String := decimalText d.value ++ d.unit.suffix

/-- Reads a numeral without a sign and a unit, with blanks around them. -/
def ofText? (raw : String) : Option Duration :=
  let (whole, rest) := (Chars.trim raw.toList).span Char.isDigit
  let (numeral, rest) := match rest with
    | '.' :: places =>
      match places.span Char.isDigit with
      | ([], _) => (whole, rest)
      | (digits, rest) => (whole ++ '.' :: digits, rest)
    | _ => (whole, rest)
  if whole.isEmpty then none
  else do
    return ⟨← Numeral.float? (String.ofList numeral), ← TimeUnit.ofSuffix? rest⟩

/-- The complaint about a text that is no duration. -/
def complaint (raw : String) : String := "'" ++ trim raw ++ "' is not a duration"

end Duration

instance : Written TimeUnit := ⟨fun u => .text u.name⟩

instance : Written Duration where
  write d := .object [("value", write d.value), ("unit", write d.unit)]

end DiagramText.Gantt
