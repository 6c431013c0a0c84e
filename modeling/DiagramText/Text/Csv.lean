import DiagramText.Text.Blank

/-!
# Fields of comma-separated rows

A field may be put between double quotes, and a quote inside it is then written twice. A field that
is not quoted as a whole stands for itself, quotes included.
-/

namespace DiagramText

namespace Csv

/-- What follows the opening quote of a field that ends with its closing quote. -/
def decode? : List Char → Option (List Char)
  | [] => none
  | ['"'] => some []
  | '"' :: '"' :: rest => (decode? rest).map ('"' :: ·)
  | '"' :: _ => none
  | c :: rest => (decode? rest).map (c :: ·)

/-- The inside of a quoted field. -/
def encode : List Char → List Char
  | [] => []
  | c :: rest => if c = '"' then '"' :: '"' :: encode rest else c :: encode rest

end Csv

/-- The text of a field. -/
def csvField (raw : String) : String :=
  let field := Chars.trim raw.toList
  let decoded := match field with
    | '"' :: rest => Csv.decode? rest
    | _ => none
  String.ofList (decoded.getD field)

/-- A field in quotes. -/
def quoteCsv (s : String) : String := String.ofList ('"' :: Csv.encode s.toList ++ ['"'])

end DiagramText
