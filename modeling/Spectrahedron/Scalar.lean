/-!
# Scalars

The algorithms of this library are written once, over any type with the operations of `Scalar`.
Binary64 floating point runs them; the real numbers are the reading in which they are proved
correct. The class lists operations and no laws, because rounded arithmetic obeys none, so the
order and the association of every expression are part of the definition of an algorithm.
-/

namespace Spectrahedron

/-- The number of values of a word of 64 bits, `2 ^ 64`. -/
def wordBound : Nat := 0x10000000000000000

/-- The operations on numbers that the algorithms use. -/
class Scalar (α : Type) extends
    Zero α, One α, Add α, Sub α, Mul α, Div α, Neg α, LT α, LE α, NatCast α where
  /-- Strict comparison can be tested. -/
  decidableLT : DecidableLT α
  /-- Weak comparison can be tested. -/
  decidableLE : DecidableLE α
  /-- The absolute value. -/
  abs : α → α
  /-- The square root. -/
  sqrt : α → α
  /-- The exponential function. -/
  exp : α → α
  /-- The natural logarithm. -/
  log : α → α
  /-- Neither infinite nor undefined. -/
  isFinite : α → Bool
  /-- The greatest whole number that is not above `x`, when it is the value of a word. -/
  floorWord? : α → Option Nat

instance Scalar.instDecidableLT {α : Type} [Scalar α] : DecidableLT α := Scalar.decidableLT

instance Scalar.instDecidableLE {α : Type} [Scalar α] : DecidableLE α := Scalar.decidableLE

namespace Scalar

variable {α : Type} [Scalar α]

/-- The number two. -/
@[inline] def two : α := 1 + 1

/-- The reciprocal. -/
@[inline] def recip (x : α) : α := 1 / x

/-- The larger of two numbers. A number that does not even compare with itself is passed over
in favour of the other. -/
@[inline] def larger (x y : α) : α := if x < y then y else if x ≤ x then x else y

/-- The smaller of two numbers. A number that does not even compare with itself is passed over
in favour of the other. -/
@[inline] def smaller (x y : α) : α := if y < x then y else if x ≤ x then x else y

/-- The spacing of binary64 numbers just above one, `2⁻⁵²`. -/
@[inline] def epsilon : α := 1 / (Nat.pow 2 52 : α)

/-- The power `10⁻ᵏ`. -/
@[inline] def tenToMinus (k : Nat) : α := 1 / (Nat.pow 10 k : α)

end Scalar

/-- Binary64 arithmetic: every operation is rounded to nearest, and the elementary functions are
those of the platform. -/
instance Scalar.instFloat : Scalar Float where
  zero := 0
  one := 1
  natCast := Float.ofNat
  decidableLT := inferInstance
  decidableLE := inferInstance
  abs := Float.abs
  sqrt := Float.sqrt
  exp := Float.exp
  log := Float.log
  isFinite := Float.isFinite
  floorWord? x :=
    let y := x.floor
    if -1 < y ∧ y < Float.ofNat wordBound then some y.toUInt64.toNat else none

end Spectrahedron
