import Mathlib.Algebra.BigOperators.Fin
import Mathlib.Analysis.SpecialFunctions.Log.Basic
import Mathlib.Analysis.SpecialFunctions.Sqrt
import Spectrahedron.Kernel

/-!
# Exact arithmetic

The real numbers as scalars. In this reading the algorithms compute without rounding: the sums of
the kernels are finite sums, and the guarded comparisons are the order of the real numbers.

**Theorem (`sum_eq`, `inner_eq`, `Mat.traceProduct_eq`).** The kernels are the sums that their
names say.
-/

namespace Spectrahedron

open Scalar

/-- The real numbers, all of which are finite. -/
noncomputable instance Scalar.instReal : Scalar ℝ where
  decidableLT := inferInstance
  decidableLE := inferInstance
  abs x := |x|
  sqrt := Real.sqrt
  exp := Real.exp
  log := Real.log
  isFinite _ := true
  floorWord? x := if 0 ≤ x ∧ x < wordBound then some ⌊x⌋₊ else none

/-! ## Scalars -/

@[simp] theorem two_eq : (two : ℝ) = 2 := one_add_one_eq_two

@[simp] theorem recip_eq (x : ℝ) : recip x = x⁻¹ := one_div x

@[simp] theorem larger_eq (x y : ℝ) : larger x y = max x y := by
  unfold larger
  rcases lt_or_ge x y with h | h
  · rw [if_pos h, max_eq_right h.le]
  · rw [if_neg (not_lt.2 h), if_pos le_rfl, max_eq_left h]

@[simp] theorem smaller_eq (x y : ℝ) : smaller x y = min x y := by
  unfold smaller
  rcases lt_or_ge y x with h | h
  · rw [if_pos h, min_eq_right h.le]
  · rw [if_neg (not_lt.2 h), if_pos le_rfl, min_eq_left h]

theorem tenToMinus_pos (k : ℕ) : (0 : ℝ) < tenToMinus k :=
  one_div_pos.2 (Nat.cast_pos.2 (Nat.pow_pos (Nat.succ_pos 9)))

/-! ## Kernels -/

variable {m n : ℕ}

theorem sum_eq (f : Fin n → ℝ) : sum f = ∑ i, f i := by
  unfold sum
  induction n with
  | zero => simp
  | succ n ih => rw [Fin.foldl_succ_last, Fin.sum_univ_castSucc, ← ih]

theorem foldl_add_eq (f : Fin n → ℝ) (s : ℝ) :
    Fin.foldl n (fun t i => t + f i) s = s + ∑ i, f i := by
  induction n generalizing s with
  | zero => simp
  | succ n ih => rw [Fin.foldl_succ_last, ih, Fin.sum_univ_castSucc, add_assoc]

theorem inner_eq (x y : Vector ℝ n) : inner x y = ∑ i : Fin n, x.get i * y.get i := sum_eq _

theorem sumSquares_eq (x : Vector ℝ n) : sumSquares x = ∑ i : Fin n, x.get i ^ 2 := by
  unfold sumSquares
  rw [sum_eq]
  exact Finset.sum_congr rfl fun i _ => (sq _).symm

theorem norm_eq (x : Vector ℝ n) : norm x = Real.sqrt (∑ i : Fin n, x.get i ^ 2) := by
  rw [← sumSquares_eq]
  rfl

theorem Mat.trace_eq (A : Mat ℝ n n) : A.trace = ∑ i, A.get i i := sum_eq _

theorem Mat.traceProduct_eq (A B : Mat ℝ n n) :
    A.traceProduct B = ∑ c, ∑ r, A.get r c * B.get c r := by
  unfold Mat.traceProduct
  simp only [foldl_add_eq]
  rw [zero_add]

end Spectrahedron
