/-!
# Shortest decimals

The text of a float is the shortest decimal that reads back as the same float, and of several the
one nearest to it. It is written without an exponent, however large or small the number is, and
without a fraction when it is a whole number.
-/

namespace DiagramText

namespace Decimal

/-- The number of mantissas that share an exponent, `2 ^ 52`. -/
def unit : Nat := 0x10000000000000

/-- A positive float `mantissa * 2 ^ power` together with the numbers that round to it: those between
the two bounds, each in quarters of the last place; the bounds belong to them when the mantissa is
even. -/
structure Spread where
  low : Nat
  value : Nat
  high : Nat
  closed : Bool
  power : Int

/-- The spread of the positive finite float with these bits. -/
def Spread.ofBits (bits : Nat) : Spread :=
  let field := bits / unit % 0x800
  let low := bits % unit
  let mantissa := if field = 0 then low else unit + low
  let power : Int := ((if field = 0 then 1 else field : Nat) : Int) - 1075
  let narrow := low = 0 && 1 < field
  ⟨4 * mantissa - (if narrow then 1 else 2), 4 * mantissa, 4 * mantissa + 2, mantissa % 2 = 0,
    power - 2⟩

/-- The number `n * 2 ^ power * 10 ^ places` as a fraction. -/
def fraction (n : Nat) (power places : Int) : Nat × Nat :=
  (n * Nat.pow 2 power.toNat * Nat.pow 10 places.toNat,
    Nat.pow 2 (-power).toNat * Nat.pow 10 (-places).toNat)

/-- Whether `k * 10 ^ (-places)` rounds to the float. -/
def Spread.contains (s : Spread) (k : Nat) (places : Int) : Bool :=
  let (low, scale) := fraction s.low s.power places
  let (high, _) := fraction s.high s.power places
  if s.closed then low ≤ k * scale && k * scale ≤ high else low < k * scale && k * scale < high

/-- The number nearest to the float among those with this many places that round to it; of two that
are equally near the even one. -/
def Spread.nearest? (s : Spread) (places : Int) : Option Nat :=
  let (value, scale) := fraction s.value s.power places
  let below := value / scale
  let above := below + 1
  let lowFits := 0 < below && s.contains below places
  let highFits := s.contains above places
  if lowFits && highFits then
    let down := value - below * scale
    let up := above * scale - value
    if down < up || (down = up && below % 2 = 0) then some below else some above
  else if lowFits then some below
  else if highFits then some above
  else none

/-- The first grid, from `places` on, that holds a number which rounds to the float. -/
def Spread.search (s : Spread) (places : Int) : Nat → Nat × Int
  | 0 => ((s.nearest? places).getD 0, places)
  | more + 1 => match s.nearest? places with
    | some k => (k, places)
    | none => s.search (places + 1) more

/-- The shortest digits and the number of their decimal places. -/
def Spread.shortest (s : Spread) : Nat × Int :=
  let (value, scale) := fraction s.value s.power 0
  let magnitude : Int :=
    if scale ≤ value then ((Nat.log2 (value / scale) : Int) * 30103 / 100000)
    else -((Nat.log2 (scale / value) : Int) * 30103 / 100000) - 1
  s.search (-magnitude - 2) 24

/-- A decimal with `places` digits after the point; no point when there are none. -/
def positional (k : Nat) (places : Int) : String :=
  if places ≤ 0 then toString (k * Nat.pow 10 (-places).toNat)
  else
    let digits := (toString k).toList
    let places := places.toNat
    let padded := List.replicate (places + 1 - digits.length) '0' ++ digits
    let whole := padded.length - places
    String.ofList (padded.take whole ++ '.' :: padded.drop whole)

end Decimal

/-- The shortest decimal that reads back as `x`; `NaN`, `inf` and `-inf` for the others. -/
def decimalText (x : Float) : String :=
  let bits := x.toBits.toNat
  let sign := if 0x8000000000000000 ≤ bits then "-" else ""
  let bits := bits % 0x8000000000000000
  if bits = 0 then sign ++ "0"
  else if bits = 0x7FF * Decimal.unit then sign ++ "inf"
  else if bits > 0x7FF * Decimal.unit then "NaN"
  else
    let (k, places) := (Decimal.Spread.ofBits bits).shortest
    sign ++ Decimal.positional k places

end DiagramText
