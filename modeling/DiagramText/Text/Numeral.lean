import DiagramText.Text.Blank

/-!
# Numerals

Reading numbers from text. A whole number has decimal digits and perhaps a sign; a bound of the kind
that is asked for (a number of 8, 32 or 64 bits) is part of reading it. A float is written with or
without a fraction and an exponent, or as one of the words `inf`, `infinity` and `nan`, in any case
of letters. Nothing may stand before or after the numeral.
-/

namespace DiagramText

namespace Numeral

/-- The value of a list of decimal digits. -/
def ofDigits (digits : List Char) : Nat :=
  digits.foldl (fun n d => 10 * n + (d.toNat - '0'.toNat)) 0

/-- At least one digit and nothing else. -/
def digits? (cs : List Char) : Option Nat :=
  if !cs.isEmpty && cs.all Char.isDigit then some (ofDigits cs) else none

/-- A natural number, with or without a plus sign, below `bound`. -/
def natBelow? (bound : Nat) (s : String) : Option Nat :=
  let body := match s.toList with
    | '+' :: rest => rest
    | cs => cs
  (digits? body).filter (· < bound)

/-- A number of 8 bits. -/
def byte? (s : String) : Option Nat := natBelow? 0x100 s

/-- A number of 32 bits. -/
def word? (s : String) : Option Nat := natBelow? 0x100000000 s

/-- A number of 64 bits. -/
def index? (s : String) : Option Nat := natBelow? 0x10000000000000000 s

/-- A number of 64 bits with a sign. -/
def signed? (s : String) : Option Int :=
  match s.toList with
  | '-' :: rest => ((digits? rest).filter (· ≤ 0x8000000000000000)).map fun n => -(n : Int)
  | '+' :: rest => ((digits? rest).filter (· < 0x8000000000000000)).map fun n => (n : Int)
  | cs => ((digits? cs).filter (· < 0x8000000000000000)).map fun n => (n : Int)

/-- The whole number nearest to `p / q`; of two that are equally near the even one. -/
def roundToEven (p q : Nat) : Nat :=
  let low := p / q
  let rest := 2 * (p % q)
  if rest < q ∨ rest = q ∧ low % 2 = 0 then low else low + 1

/-- The bits of infinity, the last of the positive floats. -/
def infinityBits : Nat := 0x7FF * Nat.pow 2 52

/-- How many binary places the least positive float has behind the point. -/
def leastPlaces : Nat := 1074

/-- The bits of the float nearest to `p / q`. All floats are multiples of the least positive one. Where a number has
more than 53 binary digits as such a multiple, as many `places` are left out at its end. -/
def nearestBits (p q : Nat) : Nat :=
  let units := p * Nat.pow 2 leastPlaces
  let places := Nat.log2 (units / q) - 52
  min (places * Nat.pow 2 52 + roundToEven units (q * Nat.pow 2 places)) infinityBits

/-- `m` times ten to the power `e`, rounded to the nearest float. Powers are not computed where the number is far
beyond the range of floats, since the exponent of a numeral can be of any size. -/
def scale (m : Nat) (e : Int) : Float :=
  Float.ofBits <| .ofNat <|
    if m = 0 ∨ e + Nat.log2 m < -400 then 0
    else if 400 < e then infinityBits
    else nearestBits (m * Nat.pow 10 e.toNat) (Nat.pow 10 (-e).toNat)

/-- What follows the mark of an exponent: a sign, which may be missing, and digits. -/
def exponent? : List Char → Option Int
  | '-' :: rest => (digits? rest).map fun n => -(n : Int)
  | '+' :: rest => (digits? rest).map fun n => (n : Int)
  | cs => (digits? cs).map fun n => (n : Int)

/-- A float without a sign in front. -/
def magnitude? (cs : List Char) : Option Float :=
  let lower := cs.map Char.toLower
  if lower == "inf".toList || lower == "infinity".toList then some (1.0 / 0.0)
  else if lower == "nan".toList then some (0.0 / 0.0)
  else
    let (whole, rest) := cs.span Char.isDigit
    let (fraction, rest) := match rest with
      | '.' :: rest => rest.span Char.isDigit
      | _ => ([], rest)
    if whole.isEmpty && fraction.isEmpty then none
    else
      let power := match rest with
        | [] => some 0
        | 'e' :: rest | 'E' :: rest => exponent? rest
        | _ => none
      power.map fun e => scale (ofDigits (whole ++ fraction)) (e - fraction.length)

/-- A float, with or without a sign. -/
def float? (s : String) : Option Float :=
  match s.toList with
  | '-' :: rest => (magnitude? rest).map Float.neg
  | '+' :: rest => magnitude? rest
  | cs => magnitude? cs

end Numeral

end DiagramText
