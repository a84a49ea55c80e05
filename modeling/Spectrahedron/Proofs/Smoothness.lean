import Mathlib.Probability.Moments.SubGaussian
import Mathlib.Probability.ProbabilityMassFunction.Integrals
import Spectrahedron.Proofs.Direction

/-!
# The curvature of the surrogate

The surrogate lies below its tangents, and its gradient is the slope of the tangent in every
symmetric direction. How far below it lies is a matter of the spread of the exponents: by
Hoeffding's lemma, the soft maximum exceeds its tangent by no more than half the largest square of a
change of an exponent.

**Theorem (`Surrogate.gradient_concave_smooth`).** The gradient is symmetric, the surrogate is
concave, and the tangent overestimates it by at most the temperature times half the square of the
scale, times the largest square of `Tr (A_i D)`.
-/

namespace Spectrahedron

open Scalar Matrix

/-! ## The curvature of the soft maximum -/

/-- **Hoeffding's lemma** for weights of sum one. -/
theorem sum_mul_exp_le {m : ℕ} {w d : Fin m → ℝ} (hw : ∀ i, 0 ≤ w i) (hsum : ∑ i, w i = 1) {s : ℝ}
    (hs : 0 ≤ s) (hd : ∀ i, d i ^ 2 ≤ s) :
    ∑ i, w i * Real.exp (d i) ≤ Real.exp (∑ i, w i * d i + s / 2) := by
  have hmass : ∑ i, ENNReal.ofReal (w i) = 1 := by
    rw [← ENNReal.ofReal_sum_of_nonneg fun i _ => hw i, hsum, ENNReal.ofReal_one]
  let p : PMF (Fin m) := PMF.ofFintype (fun i => ENNReal.ofReal (w i)) hmass
  have hmean : ∀ g : Fin m → ℝ, ∫ i, g i ∂p.toMeasure = ∑ i, w i * g i := by
    intro g
    rw [PMF.integral_eq_sum]
    refine Finset.sum_congr rfl fun i _ => ?_
    rw [PMF.ofFintype_apply, ENNReal.toReal_ofReal (hw i), smul_eq_mul]
  have hrange : ∀ᵐ i ∂p.toMeasure, d i ∈ Set.Icc (-√s) √s :=
    Filter.Eventually.of_forall fun i => abs_le.1 (Real.abs_le_sqrt (hd i))
  have hmgf := (ProbabilityTheory.hasSubgaussianMGF_of_mem_Icc
    (Measurable.of_discrete (f := d)).aemeasurable hrange).mgf_le 1
  -- Half the width of the interval is the root of `s`.
  have hwidth : (↑((‖√s - -√s‖₊ / 2 : NNReal) ^ 2) : ℝ) = s := by
    rw [NNReal.coe_pow, NNReal.coe_div, coe_nnnorm, Real.norm_eq_abs, sub_neg_eq_add, ← two_mul,
      NNReal.coe_two, abs_mul, abs_two, mul_div_cancel_left₀ _ two_ne_zero, sq_abs, Real.sq_sqrt hs]
  rw [ProbabilityTheory.mgf, hmean, hmean, hwidth] at hmgf
  simp only [one_mul, one_pow, mul_one] at hmgf
  calc ∑ i, w i * Real.exp (d i)
      = Real.exp (∑ i, w i * d i) * ∑ i, w i * Real.exp (d i - ∑ j, w j * d j) := by
        rw [Finset.mul_sum]
        refine Finset.sum_congr rfl fun i _ => ?_
        rw [Real.exp_sub]
        field_simp
    _ ≤ Real.exp (∑ i, w i * d i) * Real.exp (s / 2) :=
        mul_le_mul_of_nonneg_left hmgf (Real.exp_pos _).le
    _ = Real.exp (∑ i, w i * d i + s / 2) := (Real.exp_add _ _).symm

/-- The soft maximum exceeds its tangent by at most half the largest square of a change. -/
theorem logSum_le_add {m : ℕ} (z z' : Vector ℝ m) (h : 0 < m) {s : ℝ} (hs : 0 ≤ s)
    (hd : ∀ i, (z'.get i - z.get i) ^ 2 ≤ s) :
    (softMax z' h).logSum ≤ (softMax z h).logSum
      + ∑ i, (softMax z h).weights.get i * (z'.get i - z.get i) + s / 2 := by
  have hoeffding := sum_mul_exp_le (weights_softMax_nonneg z h) (sum_weights_softMax z h) hs hd
  rw [sum_weights_mul_exp_sub, Real.exp_le_exp] at hoeffding
  linarith

/-! ## Tangents -/

theorem traceProduct_add {n : ℕ} (A X D : Mat ℝ n n) :
    A.traceProduct (X + D) = A.traceProduct X + A.traceProduct D := by
  simpa only [one_smul, one_mul] using traceProduct_add_smul A X D 1

namespace Surrogate

variable (f : Surrogate ℝ)

/-- Only the difference of two matrices matters for that of the exponents. -/
theorem get_exponents_add_sub (X D : Mat ℝ f.system.dim f.system.dim) (i : Fin f.system.count) :
    (f.exponents (X + D)).get i - (f.exponents X).get i
      = f.temperature * (f.scale * (f.system.matrices.get i).traceProduct D) := by
  rw [exponents, exponents, Vec.get_ofFn, Vec.get_ofFn, traceProduct_add]
  ring

/-- The largest square of `Tr (A_i D)` over the constraints. -/
noncomputable def spread (D : Mat ℝ f.system.dim f.system.dim) : ℝ :=
  ⨆ i, (f.system.matrices.get i).traceProduct D ^ 2

theorem sq_traceProduct_le_spread (D : Mat ℝ f.system.dim f.system.dim) (i : Fin f.system.count) :
    (f.system.matrices.get i).traceProduct D ^ 2 ≤ f.spread D :=
  le_ciSup (Set.finite_range fun i => (f.system.matrices.get i).traceProduct D ^ 2).bddAbove i

theorem spread_nonneg (D : Mat ℝ f.system.dim f.system.dim) : 0 ≤ f.spread D :=
  Real.iSup_nonneg fun _ => sq_nonneg _

variable (X old : Mat ℝ f.system.dim f.system.dim) {D : Mat ℝ f.system.dim f.system.dim}

/-- The surrogate lies below the tangents that the gradient gives. -/
theorem value_add_le_tangent (hD : D.toMatrix.IsSymm) :
    f.value (X + D) ≤ f.value X + (f.gradient X old).frobenius D := by
  refine (f.value_le_tangent X f.scale (X + D)).trans_eq ?_
  rw [f.frobenius_gradient X old hD, neg_mul, ← sub_eq_add_neg, Finset.mul_sum]
  congr 1
  refine Finset.sum_congr rfl fun i _ => ?_
  rw [traceProduct_add]
  ring

/-- It does not lie far below them. -/
theorem tangent_le_value_add (hD : D.toMatrix.IsSymm) :
    f.value X + (f.gradient X old).frobenius D
      ≤ f.value (X + D) + f.temperature * f.scale ^ 2 / 2 * f.spread D := by
  have hM := f.temperature_pos
  have hchange : ∀ i, ((f.exponents (X + D)).get i - (f.exponents X).get i) ^ 2
      ≤ (f.temperature * f.scale) ^ 2 * f.spread D := by
    intro i
    rw [f.get_exponents_add_sub, ← mul_assoc, mul_pow]
    exact mul_le_mul_of_nonneg_left (f.sq_traceProduct_le_spread D i) (sq_nonneg _)
  have hsoft := logSum_le_add _ _ f.system.count_pos
    (mul_nonneg (sq_nonneg _) (f.spread_nonneg D)) hchange
  have hslope : ∑ i, (softMax (f.exponents X) f.system.count_pos).weights.get i
        * ((f.exponents (X + D)).get i - (f.exponents X).get i)
      = -(f.temperature * (f.gradient X old).frobenius D) := by
    rw [f.frobenius_gradient X old hD, Finset.mul_sum, Finset.mul_sum, ← Finset.sum_neg_distrib]
    refine Finset.sum_congr rfl fun i _ => ?_
    rw [f.get_exponents_add_sub, weight, soft]
    ring
  have hX : f.temperature * f.value X = -(softMax (f.exponents X) f.system.count_pos).logSum :=
    f.temperature_mul_value X
  have hXD : f.temperature * f.value (X + D)
      = -(softMax (f.exponents (X + D)) f.system.count_pos).logSum := f.temperature_mul_value (X + D)
  refine le_of_mul_le_mul_left ?_ hM
  rw [mul_add, mul_add, hX, hXD]
  rw [hslope] at hsoft
  linarith

theorem concaveOn_value : ConcaveOn ℝ Set.univ f.value := by
  refine ⟨convex_univ, fun X _ Y _ a b ha hb hab => ?_⟩
  let slope (Z : Mat ℝ f.system.dim f.system.dim) : ℝ :=
    ∑ i, f.weight (a • X + b • Y) i * (f.system.matrices.get i).traceProduct Z
  have htangent : ∀ Z, f.value Z
      ≤ f.value (a • X + b • Y) - f.scale * (slope Z - slope (a • X + b • Y)) := by
    intro Z
    refine (f.value_le_tangent (a • X + b • Y) f.scale Z).trans_eq ?_
    rw [← Finset.sum_sub_distrib, Finset.mul_sum]
    congr 1
    exact Finset.sum_congr rfl fun i _ => by ring
  have hslope : slope (a • X + b • Y) = a * slope X + b * slope Y := by
    rw [Finset.mul_sum, Finset.mul_sum, ← Finset.sum_add_distrib]
    refine Finset.sum_congr rfl fun i _ => ?_
    rw [traceProduct_add_smul, Mat.traceProduct_eq_trace, Mat.toMatrix_smul, Matrix.mul_smul,
      trace_smul, ← Mat.traceProduct_eq_trace, smul_eq_mul]
    ring
  have hX := mul_le_mul_of_nonneg_left (htangent X) ha
  have hY := mul_le_mul_of_nonneg_left (htangent Y) hb
  obtain rfl : b = 1 - a := by linarith
  rw [hslope] at hX hY
  rw [smul_eq_mul, smul_eq_mul]
  linarith

/-- **The gradient, the concavity and the smoothness of the surrogate.** Whatever matrix it is
written over, the gradient at `X` is symmetric and is the derivative in every symmetric direction.
In a symmetric direction `D` the surrogate lies below its tangent, by at most
`(M t² / 2) max Tr (A_i D)²` at the temperature `M` and the scale `t`. -/
theorem gradient_concave_smooth (f : Surrogate ℝ) :
    (∀ X old, (f.gradient X old).toMatrix.IsSymm ∧ ∀ D, D.toMatrix.IsSymm →
      (0 ≤ f.value X + (f.gradient X old).frobenius D - f.value (X + D) ∧
        f.value X + (f.gradient X old).frobenius D - f.value (X + D)
          ≤ f.temperature * f.scale ^ 2 / 2 * f.spread D) ∧
      HasDerivAt (fun a : ℝ => f.value (X + a • D)) ((f.gradient X old).frobenius D) 0) ∧
    ConcaveOn ℝ Set.univ f.value := by
  refine ⟨fun X old => ⟨f.isSymm_gradient X old, fun D hD => ⟨⟨?_, ?_⟩, ?_⟩⟩, f.concaveOn_value⟩
  · exact sub_nonneg.2 (f.value_add_le_tangent X old hD)
  · exact sub_le_iff_le_add'.2 (f.tangent_le_value_add X old hD)
  · exact f.hasDerivAt_value X old hD

/-- A bound on the trace, by a matrix that is not symmetric, and one on an entry. -/
noncomputable abbrev cornerSystem : ConstraintSystem ℝ where
  dim := 2
  count := 2
  matrices := Vector.ofFn fun i =>
    if i.val = 0 then Feasibility.skewMatrix else Mat.ofFn fun r c => if r < c then 1 else 0
  bounds := Vector.ofFn fun _ => 0
  eps := 1
  dim_pos := Nat.two_pos
  count_pos := Nat.two_pos
  eps_pos := one_pos
  eps_finite := rfl

/-- Two constraints are too few for a temperature above one at that accuracy. -/
theorem temperature_cornerSystem (t : ℝ) : Surrogate.temperature ⟨cornerSystem, t⟩ = 1 := by
  unfold temperature ConstraintSystem.temperature
  rw [larger_eq, div_one]
  refine max_eq_right ?_
  show Real.log (2 : ℕ) ≤ 1
  rw [Nat.cast_ofNat]
  exact (Real.log_le_sub_one_of_pos two_pos).trans (by norm_num)

theorem isSymm_identity : (Mat.identity ℝ 2).toMatrix.IsSymm := by
  rw [Mat.toMatrix_identity]
  exact isSymm_one

theorem traceProduct_cornerSystem_identity (i : Fin 2) :
    (cornerSystem.matrices.get i).traceProduct (Mat.identity ℝ 2) = if i.val = 0 then 2 else 0 := by
  rw [Vec.get_ofFn]
  split
  · rw [Feasibility.traceProduct_skewMatrix isSymm_identity, Mat.trace_eq_trace,
      Mat.toMatrix_identity, trace_one, Fintype.card_fin, Nat.cast_ofNat]
  · rw [Mat.traceProduct_eq]
    simp

theorem spread_cornerSystem (t : ℝ) :
    Surrogate.spread ⟨cornerSystem, t⟩ (Mat.identity ℝ 2) = 4 := by
  refine le_antisymm (ciSup_le fun i : Fin 2 => ?_) ?_
  · rw [traceProduct_cornerSystem_identity]
    split
    · norm_num
    · norm_num
  · have h := sq_traceProduct_le_spread ⟨cornerSystem, t⟩ (Mat.identity ℝ 2) (0 : Fin 2)
    rw [traceProduct_cornerSystem_identity, Fin.val_zero, if_pos rfl] at h
    exact (by norm_num : (4 : ℝ) = 2 ^ 2).trans_le h

/-- From the identity on, at the scale two, the surrogate of that system is below its tangent by at
most eight. -/
theorem cornerSystem_gradient_concave_smooth :
    (Mat.identity ℝ 2).toMatrix.IsSymm ∧
      Surrogate.value ⟨cornerSystem, 2⟩ (Mat.identity ℝ 2)
        + (Surrogate.gradient ⟨cornerSystem, 2⟩ (Mat.identity ℝ 2) Feasibility.skewMatrix).frobenius
          (Mat.identity ℝ 2)
        - Surrogate.value ⟨cornerSystem, 2⟩ (Mat.identity ℝ 2 + Mat.identity ℝ 2)
          ∈ Set.Icc 0 8 := by
  obtain ⟨⟨hlow, hhigh⟩, -⟩ := ((gradient_concave_smooth ⟨cornerSystem, 2⟩).1 (Mat.identity ℝ 2)
    Feasibility.skewMatrix).2 (Mat.identity ℝ 2) isSymm_identity
  rw [temperature_cornerSystem, spread_cornerSystem] at hhigh
  exact ⟨isSymm_identity, hlow, hhigh.trans (by norm_num)⟩

end Surrogate

end Spectrahedron
