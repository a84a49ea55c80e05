import Spectrahedron.Binary64

/-!
# Numerals

Reading numbers from text: whole numbers within a range, and binary64 numbers. A numeral is the
whole text; nothing may stand before or after it.
-/

namespace Spectrahedron.Decimal

/-- The characters from `0` to `9`. -/
def isDigit (c : Char) : Bool := '0' ≤ c && c ≤ '9'

/-- The number written by a list of digits, the leading one first. -/
def ofDigits (cs : List Char) : Nat := cs.foldl (fun n c => 10 * n + (c.toNat - '0'.toNat)) 0

/-- The number written by one or more digits and nothing else. -/
def natural? (cs : List Char) : Option Nat :=
  if cs ≠ [] ∧ cs.all isDigit then some (ofDigits cs) else none

/-- A sign, if the text begins with one (`true` for minus), and what follows. -/
def splitSign : List Char → Option Bool × List Char
  | '+' :: cs => (some false, cs)
  | '-' :: cs => (some true, cs)
  | cs => (none, cs)

/-! ## Whole numbers -/

/-- A whole number below `bound`: an optional plus sign and one or more digits. -/
def unsigned? (bound : Nat) (cs : List Char) : Option Nat :=
  match splitSign cs with
  | (some true, _) => none
  | (_, ds) => (natural? ds).filter (· < bound)

/-- A whole number from `-bound` to `bound - 1`: an optional sign and one or more digits. -/
def signed? (bound : Nat) (cs : List Char) : Option Int :=
  match splitSign cs with
  | (some true, ds) => ((natural? ds).filter (· ≤ bound)).map fun n => -(n : Int)
  | (_, ds) => ((natural? ds).filter (· < bound)).map fun n => (n : Int)

/-! ## Binary64 numbers -/

/-- The exponent part of a numeral: absent, or a letter, an optional sign and digits. -/
def exponent? : List Char → Option Int
  | [] => some 0
  | c :: cs =>
    if c = 'e' ∨ c = 'E' then
      match splitSign cs with
      | (some true, ds) => (natural? ds).map fun n => -(n : Int)
      | (_, ds) => (natural? ds).map fun n => (n : Int)
    else none

/-- The point and the digits after it, if there is a point, and what follows. -/
def splitFraction : List Char → List Char × List Char
  | '.' :: cs => (cs.takeWhile isDigit, cs.dropWhile isDigit)
  | cs => ([], cs)

/-- An unsigned decimal number `m · 10 ^ x`: digits with an optional point among or around them, at
least one digit, and an optional exponent. -/
def decimal? (cs : List Char) : Option (Nat × Int) :=
  let whole := cs.takeWhile isDigit
  let (fraction, rest) := splitFraction (cs.dropWhile isDigit)
  if whole.isEmpty && fraction.isEmpty then none
  else (exponent? rest).map fun x => (ofDigits (whole ++ fraction), x - (fraction.length : Int))

/-- A binary64 number: an optional sign, then a decimal number or, in letters of either case, one
of the words `inf`, `infinity` and `nan`. A decimal number is rounded to the nearest. -/
def float? (cs : List Char) : Option Float :=
  let (sign, body) := splitSign cs
  let negative := sign == some true
  let word := String.ofList (body.map Char.toLower)
  if word = "inf" ∨ word = "infinity" then some (if negative then -(1 / 0) else 1 / 0)
  else if word = "nan" then some (0 / 0)
  else (decimal? body).map fun (m, x) => Binary64.ofDecimal negative m x

end Spectrahedron.Decimal
