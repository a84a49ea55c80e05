import Mathlib.Analysis.Convex.SpecificFunctions.Basic
import Mathlib.Analysis.SpecialFunctions.ExpDeriv
import Mathlib.Analysis.SpecialFunctions.Log.Deriv
import Mathlib.LinearAlgebra.Matrix.IsDiag
import Spectrahedron.Feasibility.Surrogate
import Spectrahedron.Proofs.Linear

/-!
# The surrogate in exact arithmetic

The shift of the exponents by the largest of them cancels: the logarithm of the sum is that of the
exponents themselves, so it is at least each of them.

**Theorem (`Surrogate.violation_le`).** The negated value of the surrogate bounds the violation of
every constraint.
-/

namespace Spectrahedron

open Scalar

/-! ## Soft maximum -/

section SoftMax

variable {m : ℕ} (z : Vector ℝ m) (h : 0 < m)

theorem sum_exp_pos (h : 0 < m) (f : Fin m → ℝ) : 0 < ∑ i, Real.exp (f i) := by
  have hne : (Finset.univ : Finset (Fin m)).Nonempty := ⟨⟨0, h⟩, Finset.mem_univ _⟩
  exact Finset.sum_pos (fun i _ => Real.exp_pos (f i)) hne

/-- The sum of the shifted exponentials, for any shift. -/
theorem sum_exp_sub (f : Fin m → ℝ) (shift : ℝ) :
    ∑ i, Real.exp (f i - shift) = (∑ i, Real.exp (f i)) / Real.exp shift := by
  rw [Finset.sum_div]
  exact Finset.sum_congr rfl fun i _ => Real.exp_sub (f i) shift

theorem logSum_softMax : (softMax z h).logSum = Real.log (∑ i, Real.exp (z.get i)) := by
  have hsum : sum (fun i : Fin m => (z.map fun x => exp (x - greatest z h)).get i)
      = (∑ i, Real.exp (z.get i)) / Real.exp (greatest z h) := by
    rw [sum_eq, ← sum_exp_sub]
    refine Finset.sum_congr rfl fun i _ => ?_
    rw [Vec.get_map]
    rfl
  show greatest z h + Real.log (sum fun i : Fin m => _) = _
  rw [hsum, Real.log_div (sum_exp_pos h _).ne' (Real.exp_pos _).ne', Real.log_exp,
    add_sub_cancel]

theorem le_logSum (i : Fin m) : z.get i ≤ (softMax z h).logSum := by
  rw [logSum_softMax, Real.le_log_iff_exp_le (sum_exp_pos h _)]
  exact Finset.single_le_sum (fun j _ => (Real.exp_pos (z.get j)).le) (Finset.mem_univ i)

theorem logSum_le {b : ℝ} (hz : ∀ i, z.get i ≤ b) : (softMax z h).logSum ≤ b + Real.log m := by
  have hm : (0 : ℝ) < m := Nat.cast_pos.2 h
  have hsum : ∑ i, Real.exp (z.get i) ≤ m * Real.exp b := by
    refine (Finset.sum_le_card_nsmul _ _ _ fun i _ => Real.exp_le_exp.2 (hz i)).trans ?_
    rw [Finset.card_univ, Fintype.card_fin, nsmul_eq_mul]
  calc (softMax z h).logSum ≤ Real.log (m * Real.exp b) := by
        rw [logSum_softMax]
        exact Real.log_le_log (sum_exp_pos h _) hsum
    _ = b + Real.log m := by
        rw [Real.log_mul hm.ne' (Real.exp_pos b).ne', Real.log_exp, add_comm]

theorem get_weights_softMax (i : Fin m) :
    (softMax z h).weights.get i = Real.exp (z.get i) / ∑ j, Real.exp (z.get j) := by
  have hpos := Real.exp_pos (greatest z h)
  unfold softMax
  dsimp only
  rw [get_scale, recip_eq, sum_eq]
  simp only [Vec.get_map]
  show (∑ j, Real.exp (z.get j - greatest z h))⁻¹ * Real.exp (z.get i - greatest z h) = _
  rw [sum_exp_sub, Real.exp_sub]
  field_simp

theorem weights_softMax_nonneg (i : Fin m) : 0 ≤ (softMax z h).weights.get i := by
  rw [get_weights_softMax]
  exact (div_pos (Real.exp_pos _) (sum_exp_pos h _)).le

theorem sum_weights_softMax : ∑ i, (softMax z h).weights.get i = 1 := by
  simp only [get_weights_softMax]
  rw [← Finset.sum_div, div_self (sum_exp_pos h _).ne']

/-- The weighted mean of the exponentials of the differences is the ratio of the sums. -/
theorem sum_weights_mul_exp_sub (z' : Vector ℝ m) :
    ∑ i, (softMax z h).weights.get i * Real.exp (z'.get i - z.get i)
      = Real.exp ((softMax z' h).logSum - (softMax z h).logSum) := by
  rw [Real.exp_sub, logSum_softMax, logSum_softMax, Real.exp_log (sum_exp_pos h _),
    Real.exp_log (sum_exp_pos h _), Finset.sum_div]
  refine Finset.sum_congr rfl fun i _ => ?_
  rw [get_weights_softMax, Real.exp_sub]
  have hi := (Real.exp_pos (z.get i)).ne'
  field_simp

/-- **The tangents of the soft maximum.** It is convex, and the weights are the slopes: it lies
nowhere below a tangent. -/
theorem logSum_add_le (z' : Vector ℝ m) :
    (softMax z h).logSum + ∑ i, (softMax z h).weights.get i * (z'.get i - z.get i)
      ≤ (softMax z' h).logSum := by
  have hjensen : Real.exp (∑ i, (softMax z h).weights.get i * (z'.get i - z.get i))
      ≤ ∑ i, (softMax z h).weights.get i * Real.exp (z'.get i - z.get i) :=
    convexOn_exp.map_sum_le (fun i _ => weights_softMax_nonneg z h i) (sum_weights_softMax z h)
      fun _ _ => Set.mem_univ _
  rw [sum_weights_mul_exp_sub, Real.exp_le_exp] at hjensen
  linarith

/-- The derivative of the soft maximum in a direction. -/
theorem hasDerivAt_log_sum_exp (d : Fin m → ℝ) :
    HasDerivAt (fun a : ℝ => Real.log (∑ i, Real.exp (z.get i + a * d i)))
      (∑ i, (softMax z h).weights.get i * d i) 0 := by
  have hterm : ∀ i, HasDerivAt (fun a : ℝ => Real.exp (z.get i + a * d i))
      (Real.exp (z.get i) * d i) 0 := by
    intro i
    have hline : HasDerivAt (fun a : ℝ => z.get i + a * d i) (d i) 0 :=
      (hasDerivAt_mul_const (d i)).const_add (z.get i)
    simpa only [zero_mul, add_zero] using hline.exp
  have hsum : HasDerivAt (fun a : ℝ => ∑ i, Real.exp (z.get i + a * d i))
      (∑ i, Real.exp (z.get i) * d i) 0 := HasDerivAt.fun_sum fun i _ => hterm i
  have hlog := hsum.log (sum_exp_pos h _).ne'
  simp only [zero_mul, add_zero] at hlog
  convert hlog using 1
  rw [Finset.sum_div]
  refine Finset.sum_congr rfl fun i _ => ?_
  rw [get_weights_softMax, div_mul_eq_mul_div]

end SoftMax

/-! ## The surrogate -/

namespace Surrogate

variable (f : Surrogate ℝ) (x : Mat ℝ f.system.dim f.system.dim)

theorem temperature_pos : 0 < f.temperature := by
  unfold temperature ConstraintSystem.temperature
  rw [larger_eq]
  exact lt_max_of_lt_right zero_lt_one

theorem temperature_mul_value : f.temperature * f.value x = -(f.soft x).logSum := by
  unfold value
  rw [mul_div_cancel₀ _ f.temperature_pos.ne']

/-- **The surrogate is a lower bound** of the negated violation of each constraint. -/
theorem violation_le (i : Fin f.system.count) :
    f.scale * (f.system.matrices.get i).traceProduct x - f.system.bounds.get i ≤ -f.value x := by
  have hexp : (f.exponents x).get i ≤ (f.soft x).logSum := le_logSum _ _ i
  rw [exponents, Vec.get_ofFn] at hexp
  refine le_of_mul_le_mul_left ?_ f.temperature_pos
  calc f.temperature * (f.scale * (f.system.matrices.get i).traceProduct x - f.system.bounds.get i)
      ≤ (f.soft x).logSum := hexp
    _ = f.temperature * -f.value x := by
      rw [mul_neg, temperature_mul_value, neg_neg]

/-- It falls short of the negated worst violation by no more than the logarithm of the number of
constraints over the temperature. -/
theorem neg_value_le {b : ℝ}
    (h : ∀ i, f.scale * (f.system.matrices.get i).traceProduct x - f.system.bounds.get i ≤ b) :
    -f.value x ≤ b + Real.log f.system.count / f.temperature := by
  have hexp : (f.soft x).logSum ≤ f.temperature * b + Real.log f.system.count := by
    refine logSum_le _ _ fun i => ?_
    rw [exponents, Vec.get_ofFn]
    exact mul_le_mul_of_nonneg_left (h i) f.temperature_pos.le
  refine le_of_mul_le_mul_left ?_ f.temperature_pos
  calc f.temperature * -f.value x = (f.soft x).logSum := by
        rw [mul_neg, temperature_mul_value, neg_neg]
    _ ≤ f.temperature * b + Real.log f.system.count := hexp
    _ = f.temperature * (b + Real.log f.system.count / f.temperature) := by
        rw [mul_add, mul_div_cancel₀ _ f.temperature_pos.ne']

/-- The gradient does not depend on the matrix that it is written over. -/
theorem gradient_congr (old old' : Mat ℝ f.system.dim f.system.dim) :
    f.gradient x old = f.gradient x old' := by
  refine Mat.ext_get fun r c => ?_
  unfold gradient
  rw [Mat.get_ofFn, Mat.get_ofFn, zero_mul, zero_mul]

/-- The gradient is diagonal when the symmetric parts of the matrices are. -/
theorem isDiag_gradient (old : Mat ℝ f.system.dim f.system.dim)
    (h : ∀ i r c, r ≠ c →
      (f.system.matrices.get i).get r c + (f.system.matrices.get i).get c r = 0) :
    (f.gradient x old).toMatrix.IsDiag := by
  intro r c hrc
  show (f.gradient x old).get r c = 0
  unfold gradient
  rw [Mat.get_ofFn]
  refine foldl_invariant (fun _ s => s = 0) (zero_mul _) fun i s hs => ?_
  show s + _ * ((f.system.matrices.get i).get r c + (f.system.matrices.get i).get c r) = 0
  rw [h i r c hrc, hs, mul_zero, add_zero]

end Surrogate

end Spectrahedron
