import Spectrahedron.Decimal.Rounding

/-!
# Binary64 numbers

The value of a binary64 number, read from its bits, and the binary64 number nearest to a decimal
one. All of it is integer arithmetic.
-/

namespace Spectrahedron

/-- What the bits of a binary64 number stand for. A finite number is `± mantissa · 2 ^ exponent`. -/
inductive Binary64 where
  | undefined
  | infinite (negative : Bool)
  | finite (negative : Bool) (mantissa : Nat) (exponent : Int)
  deriving DecidableEq, Repr

namespace Binary64

/-- The leading bit of a mantissa, which is not stored: `2 ^ 52`. -/
def hiddenBit : Nat := 0x10000000000000

/-- The bit of the sign: `2 ^ 63`. -/
def signBit : Nat := 0x8000000000000000

/-- The exponent of the least positive number. -/
def leastExponent : Int := -1074

/-- The reading of a pattern of bits. -/
def ofBits (bits : UInt64) : Binary64 :=
  let negative := bits >>> 63 == 1
  let biased := ((bits >>> 52) &&& 0x7ff).toNat
  let fraction := (bits &&& 0xfffffffffffff).toNat
  if biased = 0x7ff then
    if fraction = 0 then infinite negative else undefined
  else if biased = 0 then finite negative fraction leastExponent
  else finite negative (fraction + hiddenBit) (biased - 1075)

/-- The reading of a number. -/
def ofFloat (x : Float) : Binary64 := ofBits x.toBits

/-- The magnitude `mantissa · 2 ^ exponent` as a numerator and a denominator. -/
def ratio (mantissa : Nat) (exponent : Int) : Nat × Nat :=
  if 0 ≤ exponent then (mantissa * Nat.pow 2 exponent.toNat, 1)
  else (mantissa, Nat.pow 2 (-exponent).toNat)

/-! ## The nearest number -/

/-- The bits of the number without a sign that is nearest to `num / den`, both positive. A tie
goes to the even mantissa; a number beyond the range becomes the infinity. -/
def nearestBits (num den : Nat) : Nat :=
  let top : Int := (num.log2 : Int) - den.log2
  let below := if 0 ≤ top then num < den * Nat.pow 2 top.toNat
    else num * Nat.pow 2 (-top).toNat < den
  let exponent := max leastExponent (if below then top - 53 else top - 52)
  let q := if 0 ≤ exponent then Decimal.roundDiv num (den * Nat.pow 2 exponent.toNat)
    else Decimal.roundDiv (num * Nat.pow 2 (-exponent).toNat) den
  let biased := (exponent - leastExponent).toNat
  min (biased * hiddenBit + q) (0x7ff * hiddenBit)

/-- The bits of the number nearest to `± mantissa · 10 ^ exponent`. Numbers that are far beyond
the range at either end are settled by the count of their digits. -/
def bitsOfDecimal (negative : Bool) (mantissa : Nat) (exponent : Int) : UInt64 :=
  let place := (Decimal.digitCount mantissa : Int) + exponent
  let magnitude :=
    if mantissa = 0 ∨ place < -330 then 0
    else if 310 < place then 0x7ff * hiddenBit
    else
      let (num, den) := Decimal.shift mantissa 1 exponent
      nearestBits num den
  UInt64.ofNat (magnitude + if negative then signBit else 0)

/-- The number nearest to `± mantissa · 10 ^ exponent`. -/
def ofDecimal (negative : Bool) (mantissa : Nat) (exponent : Int) : Float :=
  Float.ofBits (bitsOfDecimal negative mantissa exponent)

end Binary64

end Spectrahedron
