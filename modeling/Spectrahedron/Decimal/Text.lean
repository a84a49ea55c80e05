import Spectrahedron.Binary64

/-!
# The text of numbers

Three written forms of a binary64 number, all of them exact: scientific with a fixed number of
digits, positional with the fewest digits that read back, and the form for inspection, which
shows that a number is not a whole one by type and changes to an exponent when it is very large or
very small.

The digits are found by integer arithmetic on the mantissa and the exponent.
-/

namespace Spectrahedron.Decimal

open Binary64

/-- The text of a sign. -/
def signText (negative : Bool) : String := if negative then "-" else ""

/-- The text of a number by the text of its finite magnitudes. -/
def textWith (magnitude : Nat → Int → String) : Binary64 → String
  | undefined => "NaN"
  | infinite negative => signText negative ++ "inf"
  | finite negative mantissa exponent => signText negative ++ magnitude mantissa exponent

/-- A run of zeros. -/
def zeros (n : Nat) : List Char := List.replicate n '0'

/-- One digit, the rest after a point if there is a rest, and the exponent. -/
def withExponent (ds : List Char) (place : Int) : String :=
  let head := String.ofList (ds.take 1)
  let tail := String.ofList (ds.drop 1)
  head ++ (if tail.isEmpty then "" else "." ++ tail) ++ "e" ++ toString place

/-! ## A fixed number of digits -/

/-- The positive number `num / den` rounded to `places + 1` digits: the digits as a whole number,
and the place of the first. -/
def rounded (places : Nat) (num den : Nat) : Nat × Int :=
  let p := leadingPlace num den
  let (a, b) := shift num den (places - p)
  let d := roundDiv a b
  if d = Nat.pow 10 (places + 1) then (Nat.pow 10 places, p + 1) else (d, p)

/-- A magnitude in scientific form, with the given number of digits after the point. -/
def scientificMagnitude (places mantissa : Nat) (exponent : Int) : String :=
  if mantissa = 0 then withExponent (zeros (places + 1)) 0
  else
    let (num, den) := ratio mantissa exponent
    let (d, p) := rounded places num den
    withExponent (digits d) p

/-- Scientific form, with the given number of digits after the point. Ties go to the even digit. -/
def scientific (places : Nat) (x : Float) : String :=
  textWith (scientificMagnitude places) (ofFloat x)

/-! ## The fewest digits -/

/-- The numbers that read back as one number: they lie between `low / den` and `high / den`, the
ends included or not. The number itself is `value / den`. -/
structure ReadingInterval where
  low : Nat
  value : Nat
  high : Nat
  den : Nat
  closed : Bool

/-- The numbers that read back as `mantissa · 2 ^ exponent`. The gap below a power of two is half
as wide as the gap above it; the ends belong to the even mantissa. -/
def readingInterval (mantissa : Nat) (exponent : Int) : ReadingInterval :=
  let gap := if mantissa = hiddenBit ∧ leastExponent < exponent then 1 else 2
  let (unit, den) := ratio 1 (exponent - 2)
  { low := (4 * mantissa - gap) * unit
    value := 4 * mantissa * unit
    high := (4 * mantissa + 2) * unit
    den := den
    closed := mantissa % 2 = 0 }

/-- The number of the grid of step `10 ^ -k` that reads back and is nearest to the value, as a
multiple of the step. Of two that are equally near, the larger is taken. -/
def ReadingInterval.onGrid? (i : ReadingInterval) (k : Int) : Option Nat :=
  let (value, den) := shift i.value i.den k
  let (low, _) := shift i.low i.den k
  let (high, _) := shift i.high i.den k
  let q := value / den
  let inside (a b : Nat) := if i.closed then a ≤ b else a < b
  if inside low (q * den) then
    if inside ((q + 1) * den) high ∧ den ≤ 2 * (value - q * den) then some (q + 1) else some q
  else if inside ((q + 1) * den) high then some (q + 1) else none

/-- Trailing zeros moved from the digits to the exponent, at most `fuel` of them. -/
def stripZeros : Nat → Nat → Int → Nat × Int
  | 0, d, x => (d, x)
  | fuel + 1, d, x => if d % 10 = 0 then stripZeros fuel (d / 10) (x + 1) else (d, x)

/-- The first of the grids of `count`, `count + 1`, … digits with a number that reads back. -/
def firstGrid (i : ReadingInterval) (place : Int) : Nat → Nat → Nat × Int
  | 0, _ => (0, 0)
  | fuel + 1, count =>
    let k := (count : Int) - 1 - place
    match i.onGrid? k with
    | some d => stripZeros (count + 1) d (-k)
    | none => firstGrid i place fuel (count + 1)

/-- The decimal number `d · 10 ^ x` with the fewest digits that reads back as
`mantissa · 2 ^ exponent`, and among those the nearest. Seventeen digits always suffice. -/
def shortest (mantissa : Nat) (exponent : Int) : Nat × Int :=
  let (num, den) := ratio mantissa exponent
  firstGrid (readingInterval mantissa exponent) (leadingPlace num den) 17 1

/-- The decisions of a written form with the fewest digits. -/
structure Layout where
  /-- Numbers whose leading digit has one of these places are written without an exponent. -/
  positional : Int → Bool
  /-- What follows the digits of a whole number. -/
  wholeEnding : String

/-- Never an exponent, and nothing after a whole number. -/
def Layout.plain : Layout := ⟨fun _ => true, ""⟩

/-- An exponent below `10 ^ -4` and from `10 ^ 16` on; a whole number ends in a point and zero. -/
def Layout.inspection : Layout := ⟨fun place => -4 ≤ place ∧ place < 16, ".0"⟩

/-- The decimal number `ds · 10 ^ x` without an exponent. -/
def positionalText (wholeEnding : String) (ds : List Char) (x : Int) : String :=
  if 0 ≤ x then String.ofList (ds ++ zeros x.toNat) ++ wholeEnding
  else
    let fraction := (-x).toNat
    if fraction < ds.length then
      let whole := ds.length - fraction
      String.ofList (ds.take whole) ++ "." ++ String.ofList (ds.drop whole)
    else "0." ++ String.ofList (zeros (fraction - ds.length) ++ ds)

/-- A magnitude with the fewest digits. -/
def Layout.magnitude (l : Layout) (mantissa : Nat) (exponent : Int) : String :=
  if mantissa = 0 then "0" ++ l.wholeEnding
  else
    let (d, x) := shortest mantissa exponent
    let ds := digits d
    let place := x + ds.length - 1
    if l.positional place then positionalText l.wholeEnding ds x else withExponent ds place

/-- A number with the fewest digits, laid out as decided. -/
def Layout.text (l : Layout) (x : Float) : String := textWith l.magnitude (ofFloat x)

/-- The plain form of a number. -/
def plain (x : Float) : String := Layout.plain.text x

/-- The form of a number for inspection. -/
def inspect (x : Float) : String := Layout.inspection.text x

end Spectrahedron.Decimal
