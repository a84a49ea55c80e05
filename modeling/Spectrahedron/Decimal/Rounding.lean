/-!
# Rounding of quotients

Exact decimal work on a positive rational number `num / den`: its quotient rounded to the nearest
whole number, and the place of its leading decimal digit.
-/

namespace Spectrahedron.Decimal

/-- The whole number nearest to `num / den`; a tie goes to the even neighbour. -/
def roundDiv (num den : Nat) : Nat :=
  let q := num / den
  let r := num % den
  if 2 * r < den then q
  else if den < 2 * r then q + 1
  else if q % 2 = 0 then q else q + 1

/-- The decimal digits of a number, the leading one first. -/
def digits (n : Nat) : List Char := Nat.toDigits 10 n

/-- The number of decimal digits, which is one for zero. -/
def digitCount (n : Nat) : Nat := (digits n).length

/-- The place of the leading decimal digit of the positive number `num / den`: the greatest `p`
with `10 ^ p ≤ num / den`. -/
def leadingPlace (num den : Nat) : Int :=
  if den ≤ num then Int.ofNat (digitCount (num / den)) - 1
  else -Int.ofNat (digitCount ((den + num - 1) / num - 1))

/-- The fraction `num / den` times `10 ^ k`, as a numerator and a denominator. -/
def shift (num den : Nat) (k : Int) : Nat × Nat :=
  if 0 ≤ k then (num * Nat.pow 10 k.toNat, den) else (num, den * Nat.pow 10 (-k).toNat)

/-- The rounded quotient is within one half of the quotient. -/
theorem roundDiv_near (num den : Nat) (h : 0 < den) :
    2 * (roundDiv num den * den) ≤ 2 * num + den ∧ 2 * num ≤ 2 * (roundDiv num den * den) + den := by
  have hq := Nat.div_add_mod num den
  have hr := Nat.mod_lt num h
  have hm : den * (num / den) = num / den * den := Nat.mul_comm _ _
  have hs : (num / den + 1) * den = num / den * den + den := Nat.succ_mul _ _
  unfold roundDiv
  dsimp only
  split
  · omega
  · split
    · omega
    · split <;> omega

end Spectrahedron.Decimal
