import TemplateFrontend.Text.Pieces
/-!
# Decimal text of binary floating-point numbers

A finite number has the shortest decimal text that reads back to it, written positionally, whatever
its size. `Decimal.shortest` finds the digits: among the grids of multiples of a power of ten it
takes the coarsest that has a point in the interval of values that round to the number, and there
the point nearest to the number. `Decimal.render` writes digits and power of ten without an
exponent, `Decimal.parse?` reads decimal text of any form.
-/

namespace TemplateFrontend.Decimal

open Text

/-! ### Shortest digits -/

/-- A positive value with the interval of reals that round to it, over the common unit
`2 ^ exponent`. The ends belong to the interval if `closed`. -/
structure Rounding where
  low : Nat
  value : Nat
  high : Nat
  exponent : Int
  closed : Bool
  deriving Repr

/-- The interval of the double with fraction bits `fraction` and exponent bits `expBits`. Below a
power of two the neighbours lie twice as close. -/
def Rounding.ofBits (expBits fraction : Nat) : Rounding :=
  let m := if expBits = 0 then fraction else fraction + Nat.pow 2 52
  let q : Int := (if expBits = 0 then 1 else (expBits : Int)) - 1075
  let low := if fraction = 0 && 1 < expBits then 4 * m - 1 else 4 * m - 2
  ⟨low, 4 * m, 4 * m + 2, q - 2, m % 2 == 0⟩

/-- Numerator and denominator of the interval's unit over `10 ^ grid`. -/
def Rounding.scale (r : Rounding) (grid : Int) : Nat × Nat :=
  (Nat.pow 2 r.exponent.toNat * Nat.pow 10 (-grid).toNat,
    Nat.pow 2 (-r.exponent).toNat * Nat.pow 10 grid.toNat)

/-- Whether the value `d * den` lies in the interval whose values are multiples of `num`. -/
def Rounding.admits (r : Rounding) (num den d : Nat) : Bool :=
  if r.closed then r.low * num ≤ d * den && d * den ≤ r.high * num
  else r.low * num < d * den && d * den < r.high * num

/-- The multiple of `10 ^ grid` in the interval that is nearest to the value, if there is one. Of
two equally near the larger is taken. -/
def Rounding.nearest? (r : Rounding) (grid : Int) : Option Nat :=
  let (num, den) := r.scale grid
  let d := r.value * num / den
  let below := 0 < d && r.admits num den d
  let above := r.admits num den (d + 1)
  match below, above with
  | true, true =>
    if r.value * num - d * den < (d + 1) * den - r.value * num then some d else some (d + 1)
  | true, false => some d
  | false, true => some (d + 1)
  | false, false => none

/-- The first hit among `n` grids, from `grid` downwards. -/
def Rounding.search (r : Rounding) : Nat → Int → Option (Nat × Int)
  | 0, _ => none
  | n + 1, grid =>
    match r.nearest? grid with
    | some d => some (d, grid)
    | none => r.search n (grid - 1)

/-- The digits and the power of ten of the shortest decimal that rounds to the value. The powers
from 309 to -345 include a hit for every double. -/
def shortest (r : Rounding) : Nat × Int := (r.search 655 309).getD (0, 0)

/-! ### Writing -/

/-- The text of `d * 10 ^ grid` without an exponent: no point after a whole number, no zero at the
end of a fraction. -/
def renderDigits (d : Nat) (grid : Int) : List Char :=
  let ds := digits d
  if 0 ≤ grid then ds ++ List.replicate grid.toNat '0'
  else
    let places := (-grid).toNat
    let padded := List.replicate (places + 1 - ds.length) '0' ++ ds
    let whole := padded.take (padded.length - places)
    let fraction := ((padded.drop (padded.length - places)).reverse.dropWhile (· == '0')).reverse
    if fraction.isEmpty then whole else whole ++ '.' :: fraction

/-- The text of a floating-point number. Zero keeps its sign; values that are not finite are
`NaN`, `inf` and `-inf`. -/
def render (x : Float) : String :=
  let bits := x.toBits.toNat
  let expBits := bits / Nat.pow 2 52 % Nat.pow 2 11
  let fraction := bits % Nat.pow 2 52
  let sign := if bits / Nat.pow 2 63 = 0 then [] else ['-']
  if expBits = 2047 then
    if fraction = 0 then String.ofList (sign ++ "inf".toList) else "NaN"
  else if expBits = 0 && fraction = 0 then String.ofList (sign ++ ['0'])
  else
    let (d, grid) := shortest (.ofBits expBits fraction)
    String.ofList (sign ++ renderDigits d grid)

/-! ### Reading -/

/-- The number that decimal digits denote. -/
def natOfDigits (ds : List Char) : Nat := ds.foldl (fun n c => 10 * n + (c.toNat - 48)) 0

/-- The number nearest to `mantissa * 10 ^ exponent`. -/
def ofScaled (mantissa : Nat) (exponent : Int) : Float :=
  if mantissa = 0 then Float.ofScientific 0 false 0
  else if exponent < 0 then Float.ofScientific mantissa true (-exponent).toNat
  else Float.ofScientific mantissa false exponent.toNat

/-- An exponent with an optional sign, digits only. -/
def exponent? (cs : List Char) : Option Int :=
  let (negative, ds) := match cs with
    | '-' :: ds => (true, ds)
    | '+' :: ds => (false, ds)
    | ds => (false, ds)
  if ds.isEmpty || !ds.all Char.isDigit then none
  else if negative then some (-(natOfDigits ds : Int)) else some (natOfDigits ds)

/-- Digits with at most one point, at least one digit in all, and an optional exponent. Exponents
far outside the range of doubles are cut to a size that still under- or overflows. -/
def parseUnsigned? (cs : List Char) : Option Float :=
  let whole := cs.takeWhile Char.isDigit
  let rest := cs.dropWhile Char.isDigit
  let (fraction, rest) := match rest with
    | '.' :: rest => (rest.takeWhile Char.isDigit, rest.dropWhile Char.isDigit)
    | rest => ([], rest)
  if whole.isEmpty && fraction.isEmpty then none
  else
    let mantissa := natOfDigits (whole ++ fraction)
    let places : Int := fraction.length
    let size : Int := (whole ++ fraction).length
    match rest with
    | [] => some (ofScaled mantissa (-places))
    | c :: rest =>
      if c = 'e' || c = 'E' then
        (exponent? rest).map fun e =>
          ofScaled mantissa (max (-400 - size) (min e (400 + size)) - places)
      else none

/-- The floating-point number a text denotes: decimal digits, or `inf`, `infinity` or `nan` in any
case, after an optional sign. -/
def parse? (s : String) : Option Float :=
  let (negative, cs) := match s.toList with
    | '-' :: cs => (true, cs)
    | '+' :: cs => (false, cs)
    | cs => (false, cs)
  let magnitude :=
    let name := String.ofList (cs.map Char.toLower)
    if name = "inf" || name = "infinity" then some (Float.ofBits 0x7ff0000000000000)
    else if name = "nan" then some (Float.ofBits 0x7ff8000000000000)
    else parseUnsigned? cs
  magnitude.map fun x => if negative then -x else x

end TemplateFrontend.Decimal
