import Spectrahedron.Proofs.Rayleigh
import Spectrahedron.Proofs.Search
import Spectrahedron.Proofs.Soundness

/-!
# The direction of the search

The surrogate is a concave function of `t X`, and its gradient there is a weighted sum of the
constraint matrices. The gradient in `X` and the sensitivity in `t` are two readings of that sum, so
`t` times the sensitivity is the inner product of the gradient with `X`. A tangent of a concave
function lies above it; over the spectrahedron the tangent at `t X` is at most

  `f X + (t' - t) s + (t' / t) gap`

at the scale `t'`, where `s` is the sensitivity and the gap is that of the linear problem at `X`.
The term of the sensitivity is not positive on the side of `t` that a rejection rules out.

**Theorem (`Feasibility.direction_sound`).** No scale that is ruled out has a surrogate larger than
the rejected one by more than the gap; for trials that maximise the surrogate the gap is zero, and
no acceptable scale is ruled out.
-/

namespace Spectrahedron

open Scalar Matrix

theorem traceProduct_add_smul {n : ℕ} (A X D : Mat ℝ n n) (a : ℝ) :
    A.traceProduct (X + a • D) = A.traceProduct X + a * A.traceProduct D := by
  simp only [Mat.traceProduct_eq_trace, Mat.toMatrix_add, Mat.toMatrix_smul, Matrix.mul_add,
    Matrix.mul_smul, trace_add, trace_smul, smul_eq_mul]

/-! ## The surrogate along the scales -/

namespace Surrogate

variable (f : Surrogate ℝ) (X : Mat ℝ f.system.dim f.system.dim)

/-- The weight of a constraint at a matrix. -/
noncomputable def weight (i : Fin f.system.count) : ℝ := (f.soft X).weights.get i

theorem sum_weight : ∑ i, f.weight X i = 1 := sum_weights_softMax _ _

theorem sensitivity_eq :
    f.sensitivity X = -∑ i, f.weight X i * (f.system.matrices.get i).traceProduct X := by
  unfold sensitivity
  simp only [sub_eq_add_neg, foldl_add_eq]
  rw [zero_add, Finset.sum_neg_distrib]
  rfl

theorem toMatrix_gradient (old : Mat ℝ f.system.dim f.system.dim) :
    (f.gradient X old).toMatrix = ∑ i, (-f.scale * f.weight X i / 2) •
      ((f.system.matrices.get i).toMatrix + (f.system.matrices.get i).toMatrixᵀ) := by
  ext r c
  rw [Matrix.sum_apply]
  unfold gradient
  simp only [Mat.toMatrix_apply, Mat.get_ofFn, foldl_add_eq, zero_mul, zero_add, two_eq]
  rfl

theorem isSymm_gradient (old : Mat ℝ f.system.dim f.system.dim) :
    (f.gradient X old).toMatrix.IsSymm := by
  unfold Matrix.IsSymm
  rw [toMatrix_gradient, transpose_sum]
  refine Finset.sum_congr rfl fun i _ => ?_
  rw [transpose_smul, transpose_add, transpose_transpose, add_comm]

/-- The gradient sees the weighted sum of the constraint matrices. -/
theorem frobenius_gradient (old : Mat ℝ f.system.dim f.system.dim)
    {Y : Mat ℝ f.system.dim f.system.dim} (hY : Y.toMatrix.IsSymm) :
    (f.gradient X old).frobenius Y
      = -f.scale * ∑ i, f.weight X i * (f.system.matrices.get i).traceProduct Y := by
  rw [Mat.frobenius_eq_trace, hY, toMatrix_gradient, Finset.sum_mul, trace_sum, Finset.mul_sum]
  refine Finset.sum_congr rfl fun i _ => ?_
  rw [smul_mul, Matrix.add_mul, trace_smul, trace_add, Mat.trace_transpose_mul _ hY,
    Mat.traceProduct_eq_trace, smul_eq_mul]
  ring

/-- The sensitivity and the gradient are two readings of one derivative. -/
theorem scale_mul_sensitivity (old : Mat ℝ f.system.dim f.system.dim) (hX : X.toMatrix.IsSymm) :
    f.scale * f.sensitivity X = (f.gradient X old).frobenius X := by
  rw [f.frobenius_gradient X old hX, sensitivity_eq]
  ring

/-- **The surrogate is concave** in the product of the scale and the matrix, and the weights give
its tangents. -/
theorem value_le_tangent (scale : ℝ) (Y : Mat ℝ f.system.dim f.system.dim) :
    Surrogate.value ⟨f.system, scale⟩ Y ≤ f.value X - ∑ i, f.weight X i *
      (scale * (f.system.matrices.get i).traceProduct Y
        - f.scale * (f.system.matrices.get i).traceProduct X) := by
  have hM := f.temperature_pos
  have htangent := logSum_add_le (f.exponents X) f.system.count_pos
    (Surrogate.exponents ⟨f.system, scale⟩ Y)
  have hstep : ∑ i, f.weight X i *
        ((Surrogate.exponents ⟨f.system, scale⟩ Y).get i - (f.exponents X).get i)
      = f.temperature * ∑ i, f.weight X i *
        (scale * (f.system.matrices.get i).traceProduct Y
          - f.scale * (f.system.matrices.get i).traceProduct X) := by
    rw [Finset.mul_sum]
    refine Finset.sum_congr rfl fun i _ => ?_
    rw [exponents, exponents, Vec.get_ofFn, Vec.get_ofFn]
    show f.weight X i * (f.temperature * _ - _) = _
    ring
  have hX := f.temperature_mul_value X
  have hY : f.temperature * Surrogate.value ⟨f.system, scale⟩ Y
      = -(Surrogate.soft ⟨f.system, scale⟩ Y).logSum :=
    temperature_mul_value ⟨f.system, scale⟩ Y
  refine le_of_mul_le_mul_left ?_ hM
  rw [mul_sub, hX, hY, ← hstep]
  change (f.soft X).logSum + ∑ i, f.weight X i * _
    ≤ (Surrogate.soft ⟨f.system, scale⟩ Y).logSum at htangent
  linarith

/-- The gradient is the derivative in every symmetric direction. -/
theorem hasDerivAt_value (old : Mat ℝ f.system.dim f.system.dim)
    {D : Mat ℝ f.system.dim f.system.dim} (hD : D.toMatrix.IsSymm) :
    HasDerivAt (fun a : ℝ => f.value (X + a • D)) ((f.gradient X old).frobenius D) 0 := by
  let slope (i : Fin f.system.count) : ℝ :=
    f.temperature * (f.scale * (f.system.matrices.get i).traceProduct D)
  have hvalue : (fun a : ℝ => f.value (X + a • D))
      = fun a => -(Real.log (∑ i, Real.exp ((f.exponents X).get i + a * slope i)))
        / f.temperature := by
    funext a
    show -(f.soft _).logSum / f.temperature = _
    unfold soft
    rw [logSum_softMax]
    simp only [exponents, Vec.get_ofFn, traceProduct_add_smul, slope]
    congr! 5
    ring
  have hslope : (f.gradient X old).frobenius D
      = -(∑ i, f.weight X i * slope i) / f.temperature := by
    have hM := f.temperature_pos.ne'
    have hsum : ∑ i, f.weight X i * slope i = f.temperature * (f.scale * ∑ i, f.weight X i *
        (f.system.matrices.get i).traceProduct D) := by
      rw [Finset.mul_sum, Finset.mul_sum]
      exact Finset.sum_congr rfl fun i _ => by ring
    rw [f.frobenius_gradient X old hD, hsum]
    field_simp
  rw [hvalue, hslope]
  exact (hasDerivAt_log_sum_exp (f.exponents X) f.system.count_pos slope).neg.div_const _

/-! ## The gap -/

/-- The gap of the linear problem at a matrix. -/
noncomputable def gap : ℝ :=
  (f.gradient X X).topEigenvalue - (f.gradient X X).frobenius X

theorem gap_eq (old : Mat ℝ f.system.dim f.system.dim) :
    f.gap X = (f.gradient X old).topEigenvalue - (f.gradient X old).frobenius X := by
  rw [gap, f.gradient_congr X X old]

variable {X}

theorem gap_nonneg (hX : X ∈ spectrahedron f.system.dim) : 0 ≤ f.gap X :=
  sub_nonneg.2 (frobenius_le_topEigenvalue (f.isSymm_gradient X X) hX)

/-- The value at another scale is bounded by the value, the sensitivity and the gap at this one. -/
theorem value_le_add_gap (hscale : 0 < f.scale) (hX : X.toMatrix.IsSymm) {scale : ℝ}
    (hscale' : 0 < scale) {Y : Mat ℝ f.system.dim f.system.dim}
    (hY : Y ∈ spectrahedron f.system.dim) :
    Surrogate.value ⟨f.system, scale⟩ Y
      ≤ f.value X + (scale - f.scale) * f.sensitivity X + scale / f.scale * f.gap X := by
  have hsupport := frobenius_le_topEigenvalue (f.isSymm_gradient X X) hY
  have hsens := f.scale_mul_sensitivity X X hX
  have hinner : -∑ i, f.weight X i * (f.system.matrices.get i).traceProduct Y
      = (f.gradient X X).frobenius Y / f.scale := by
    rw [f.frobenius_gradient X X (isSymm_of_mem hY)]
    field_simp
  calc Surrogate.value ⟨f.system, scale⟩ Y
      ≤ f.value X - ∑ i, f.weight X i * (scale * (f.system.matrices.get i).traceProduct Y
          - f.scale * (f.system.matrices.get i).traceProduct X) := f.value_le_tangent X scale Y
    _ = f.value X + scale * -∑ i, f.weight X i * (f.system.matrices.get i).traceProduct Y
          - f.scale * f.sensitivity X := by
        have hsplit : ∀ i, f.weight X i * (scale * (f.system.matrices.get i).traceProduct Y
              - f.scale * (f.system.matrices.get i).traceProduct X)
            = scale * (f.weight X i * (f.system.matrices.get i).traceProduct Y)
              - f.scale * (f.weight X i * (f.system.matrices.get i).traceProduct X) :=
          fun i => by ring
        simp only [hsplit, Finset.sum_sub_distrib, ← Finset.mul_sum, sensitivity_eq]
        ring
    _ = f.value X + scale / f.scale * (f.gradient X X).frobenius Y
          - f.scale * f.sensitivity X := by
        rw [hinner]
        ring
    _ ≤ f.value X + scale / f.scale * (f.gradient X X).topEigenvalue
          - f.scale * f.sensitivity X := by
        have h := mul_le_mul_of_nonneg_left hsupport (div_pos hscale' hscale).le
        linarith
    _ = f.value X + (scale - f.scale) * f.sensitivity X + scale / f.scale * f.gap X := by
        rw [gap, ← hsens]
        field_simp
        ring

/-- At a maximum over the spectrahedron there is no gap. -/
theorem gap_eq_zero_of_isMaxOn (hX : X ∈ spectrahedron f.system.dim)
    (hmax : IsMaxOn f.value (spectrahedron f.system.dim) X) : f.gap X = 0 := by
  refine le_antisymm ?_ (f.gap_nonneg hX)
  obtain ⟨v, hv, htop⟩ :=
    exists_quadratic_eq_topEigenvalue f.system.dim_pos (f.isSymm_gradient X X)
  have hD : (Mat.rankOne v - X).toMatrix.IsSymm := by
    rw [Mat.toMatrix_sub]
    exact (isSymm_of_mem (rankOne_mem hv)).sub (isSymm_of_mem hX)
  -- The value along the segment from `X` to the vertex that attains the largest eigenvalue.
  let line : ℝ → ℝ := fun a => f.value (X + a • (Mat.rankOne v - X))
  have hline : HasDerivAt line (f.gap X) 0 := by
    rw [gap, ← htop, ← Mat.frobenius_rankOne, ← Mat.frobenius_sub]
    exact f.hasDerivAt_value X X hD
  have hright := hline.tendsto_slope_zero_right
  refine le_of_tendsto hright ?_
  filter_upwards [Ioc_mem_nhdsGT (zero_lt_one (α := ℝ))] with a ha
  have hmem : X + a • (Mat.rankOne v - X) ∈ spectrahedron f.system.dim := by
    rw [← FrankWolfe.move_eq]
    exact FrankWolfe.move_mem hX ha.1.le ha.2 hv
  have hle : line (0 + a) ≤ line 0 := by
    show f.value _ ≤ f.value _
    rw [zero_add, zero_smul, add_zero]
    exact hmax hmem
  exact mul_nonpos_of_nonneg_of_nonpos (inv_nonneg.2 ha.1.le) (sub_nonpos.2 hle)

end Surrogate

/-! ## What a rejection rules out -/

namespace Bracket

variable {b : Bracket ℝ} {sensitivity t : ℝ}

/-- The scales that a rejection with a sensitivity rules out: those up to the rejected one if the
sensitivity is positive, and those from it on otherwise. -/
def Discards (b : Bracket ℝ) (sensitivity t : ℝ) : Prop :=
  if 0 < sensitivity then t ≤ b.scale else b.scale ≤ t

/-- The scales outside of a bracket. -/
def Excludes (b : Bracket ℝ) (t : ℝ) : Prop := t ≤ b.lo ∨ ∃ h ∈ b.hi, h ≤ t

/-- A rejection adds to the scales outside of the bracket those that it rules out. -/
theorem excludes_reject (h : (b.reject sensitivity).Excludes t) :
    b.Excludes t ∨ b.Discards sensitivity t := by
  unfold Bracket.reject at h
  unfold Discards
  split at h
  · rename_i hpos
    rw [if_pos hpos]
    exact h.symm.imp_left Or.inr
  · rename_i hnonpos
    rw [if_neg hnonpos]
    obtain hlo | ⟨_, ⟨⟩, hhi⟩ := h
    · exact Or.inl (Or.inl hlo)
    · exact Or.inr hhi

/-- Nothing else is added, and nothing is lost. -/
theorem Ordered.excludes_reject_iff (hb : b.Ordered) :
    (b.reject sensitivity).Excludes t ↔ b.Excludes t ∨ b.Discards sensitivity t := by
  refine ⟨excludes_reject, ?_⟩
  unfold Bracket.reject Discards Excludes
  split
  · rintro ((hlo | hhi) | ht)
    · exact Or.inl (hlo.trans hb.lo_lt.le)
    · exact Or.inr hhi
    · exact Or.inl ht
  · rintro ((hlo | ⟨h, hh, ht⟩) | ht)
    · exact Or.inl hlo
    · exact Or.inr ⟨_, rfl, (hb.lt_hi h hh).le.trans ht⟩
    · exact Or.inr ⟨_, rfl, ht⟩

/-- The scale to be tried has not been ruled out. -/
theorem Ordered.not_excludes_scale (hb : b.Ordered) : ¬b.Excludes b.scale := by
  rintro (hlo | ⟨h, hh, ht⟩)
  · exact hlo.not_gt hb.lo_lt
  · exact ht.not_gt (hb.lt_hi h hh)

/-- Before the first trial no positive scale has been ruled out. -/
theorem not_excludes_start {scale : ℝ} (ht : 0 < t) : ¬(start scale).Excludes t := by
  rintro (hlo | ⟨_, hh, -⟩)
  · exact hlo.not_gt ht
  · cases hh

end Bracket

/-- A scale is ruled out by a trial that has been rejected. -/
theorem Rejected.exists_discards {χ : Type} {trial : ℝ → Except Stop (Trial ℝ χ)} {eps scale t : ℝ}
    {k : ℕ} {b : Bracket ℝ} (h : Rejected trial eps (Bracket.start scale) k b) (ht : 0 < t)
    (hexcludes : b.Excludes t) :
    ∃ (b' : Bracket ℝ) (tr : Trial ℝ χ), trial b'.scale = .ok tr ∧ tr.value ≤ -eps ∧
      b'.Discards tr.sensitivity t := by
  induction h with
  | start => exact absurd hexcludes (Bracket.not_excludes_start ht)
  | @step _ b tr _ htr hreject ih =>
    rcases Bracket.excludes_reject hexcludes with hold | hnew
    · exact ih hold
    · exact ⟨b, tr, htr, not_lt.1 hreject, hnew⟩

/-! ## Trials -/

namespace Surrogate

/-- The trial that reports a matrix of the spectrahedron. -/
noncomputable def trialOf (f : Surrogate ℝ) (X : Mat ℝ f.system.dim f.system.dim) :
    Trial ℝ (Mat ℝ f.system.dim f.system.dim) :=
  ⟨X.scale f.scale, f.value X, f.sensitivity X⟩

/-- On the side that is ruled out the surrogate exceeds the value of the trial by no more than the
gap. -/
theorem value_le_of_discards {b : Bracket ℝ} (f : Surrogate ℝ) (hf : f.scale = b.scale)
    (hscale : 0 < b.scale) {X : Mat ℝ f.system.dim f.system.dim} (hX : X.toMatrix.IsSymm) {t : ℝ}
    (ht : 0 < t) (hdiscards : b.Discards (f.sensitivity X) t)
    {Y : Mat ℝ f.system.dim f.system.dim} (hY : Y ∈ spectrahedron f.system.dim) :
    Surrogate.value ⟨f.system, t⟩ Y ≤ f.value X + t / b.scale * f.gap X := by
  have hbound := f.value_le_add_gap (hf ▸ hscale) hX ht hY
  have hside : (t - b.scale) * f.sensitivity X ≤ 0 := by
    unfold Bracket.Discards at hdiscards
    split at hdiscards
    · rename_i hpos
      exact mul_nonpos_of_nonpos_of_nonneg (sub_nonpos.2 hdiscards) hpos.le
    · rename_i hnonpos
      exact mul_nonpos_of_nonneg_of_nonpos (sub_nonneg.2 hdiscards) (not_lt.1 hnonpos)
  rw [hf] at hbound
  linarith

end Surrogate

namespace Feasibility

/-- A trial at a positive scale of a matrix that maximises the surrogate over the spectrahedron. -/
def ExactTrial (system : ConstraintSystem ℝ) (t : ℝ)
    (tr : Trial ℝ (Mat ℝ system.dim system.dim)) : Prop :=
  0 < t ∧ ∃ X ∈ spectrahedron system.dim,
    IsMaxOn (Surrogate.value ⟨system, t⟩) (spectrahedron system.dim) X ∧
      tr = Surrogate.trialOf ⟨system, t⟩ X

/-- **Soundness of the direction.** The scale times the sensitivity is the inner product of the
gradient with the point, and the surrogate at any scale is bounded by the value, the sensitivity and
the gap at another. So what a trial of the search rules out cannot exceed its value by more than the
gap, in proportion to the scale; and a search by trials that maximise the surrogate never rules out
a scale at which some matrix would be accepted. -/
theorem direction_sound (p : Feasibility ℝ) :
    (∀ t, 0 < t → ∀ X ∈ spectrahedron p.system.dim,
      (∀ old, t * (p.surrogate t).sensitivity X = ((p.surrogate t).gradient X old).frobenius X ∧
        (p.surrogate t).gap X = ((p.surrogate t).gradient X old).topEigenvalue
          - ((p.surrogate t).gradient X old).frobenius X) ∧
      0 ≤ (p.surrogate t).gap X ∧
      ∀ t', 0 < t' → ∀ Y ∈ spectrahedron p.system.dim,
        (p.surrogate t').value Y ≤ (p.surrogate t).value X
          + (t' - t) * (p.surrogate t).sensitivity X + t' / t * (p.surrogate t).gap X) ∧
    (∀ par work (b : Bracket ℝ) tr, (solveScale p.system par work b.scale).outcome = .ok tr →
      ∃ X : p.Point, X.toMatrix.PosSemidef ∧
        (0 ≤ par.solver.epsZero → X ∈ spectrahedron p.system.dim) ∧
        tr = (p.surrogate b.scale).trialOf X ∧
        ∀ t', 0 < t' → b.Discards tr.sensitivity t' → ∀ Y ∈ spectrahedron p.system.dim,
          (p.surrogate t').value Y ≤ tr.value + t' / b.scale * (p.surrogate b.scale).gap X) ∧
    ∀ trial : ℝ → Except Stop (Trial ℝ p.Point),
      (∀ t tr, trial t = .ok tr → ExactTrial p.system t tr) →
      ∀ scale k b, Rejected trial p.system.eps (Bracket.start scale) k b →
      ∀ t', 0 < t' → b.Excludes t' → ∀ Y ∈ spectrahedron p.system.dim,
        (p.surrogate t').value Y ≤ -p.system.eps := by
  refine ⟨?_, ?_, ?_⟩
  · intro t ht X hX
    have hsymm := isSymm_of_mem hX
    refine ⟨fun old => ⟨?_, (p.surrogate t).gap_eq X old⟩, (p.surrogate t).gap_nonneg hX, ?_⟩
    · exact (p.surrogate t).scale_mul_sensitivity X old hsymm
    · intro t' ht' Y hY
      exact (p.surrogate t).value_le_add_gap ht hsymm ht' hY
  · intro par work b tr h
    obtain ⟨⟨hpos, -⟩, X, hrun, rfl⟩ := exists_of_solveScale_ok h
    have hX : X.toMatrix.PosSemidef := FrankWolfe.posSemidef_of_solve_ok hrun
    refine ⟨X, hX, fun hpar => (FrankWolfe.solve_mem hpar _ _ _ _).2 X hrun, rfl, ?_⟩
    intro t' ht' hdiscards Y hY
    exact (p.surrogate b.scale).value_le_of_discards rfl hpos
      (isHermitian_iff_isSymm.1 hX.isHermitian) ht' hdiscards hY
  · intro trial hexact scale k b hb t' ht' hexcludes Y hY
    obtain ⟨b', tr, htr, hreject, hdiscards⟩ := hb.exists_discards ht' hexcludes
    obtain ⟨hpos, X, hX, hmax, rfl⟩ := hexact b'.scale tr htr
    have hbound := (p.surrogate b'.scale).value_le_of_discards rfl hpos (isSymm_of_mem hX) ht'
      hdiscards hY
    rw [(p.surrogate b'.scale).gap_eq_zero_of_isMaxOn hX hmax, mul_zero, add_zero] at hbound
    exact hbound.trans hreject

/-- On the spectrahedron the surrogate of the system with the matrix of ones is constant. -/
theorem value_skewSystem_eq {bound t : ℝ} {X : Mat ℝ 2 2} (hX : X ∈ spectrahedron 2) :
    Surrogate.value ⟨skewSystem bound, t⟩ X = bound - t := by
  have htrace : skewMatrix.traceProduct X = 1 := by
    rw [traceProduct_skewMatrix (isSymm_of_mem hX), hX.2]
  have hlow := Surrogate.violation_le ⟨skewSystem bound, t⟩ X (0 : Fin 1)
  have hhigh := Surrogate.neg_value_le ⟨skewSystem bound, t⟩ X (b := t - bound) ?_
  · rw [Nat.cast_one, Real.log_one, zero_div, add_zero] at hhigh
    rw [Vec.get_ofFn, Vec.get_ofFn, htrace] at hlow
    dsimp only at hlow
    linarith
  · intro i
    rw [Vec.get_ofFn, Vec.get_ofFn, htrace, mul_one]

theorem sensitivity_skewSystem_eq {bound t : ℝ} {X : Mat ℝ 2 2} (hX : X ∈ spectrahedron 2) :
    Surrogate.sensitivity ⟨skewSystem bound, t⟩ X = -1 := by
  have hsum := Surrogate.sum_weight ⟨skewSystem bound, t⟩ X
  rw [Surrogate.sensitivity_eq, ← hsum]
  congr 1
  refine Finset.sum_congr rfl fun i _ => ?_
  rw [Vec.get_ofFn, traceProduct_skewMatrix (isSymm_of_mem hX), hX.2, mul_one]

/-- The trials of the search for the bound minus one are exact. The first, at the scale one, is
rejected and rules out the scale two, where the surrogate is at most minus one tenth indeed. -/
theorem skewSystem_direction_sound :
    ∃ (tr : Trial ℝ (Mat ℝ 2 2)) (X : Mat ℝ 2 2),
      (solveScale (skewSystem (-1)) SearchSettings.default #[] 1).outcome = .ok tr ∧
      X ∈ spectrahedron 2 ∧ tr = Surrogate.trialOf ⟨skewSystem (-1), 1⟩ X ∧
      tr.value = -2 ∧ tr.sensitivity = -1 ∧ 0 ≤ Surrogate.gap ⟨skewSystem (-1), 1⟩ X ∧
      ∀ Y ∈ spectrahedron 2,
        Surrogate.value ⟨skewSystem (-1), 2⟩ Y
          ≤ tr.value + 2 / 1 * Surrogate.gap ⟨skewSystem (-1), 1⟩ X ∧
        Surrogate.value ⟨skewSystem (-1), 2⟩ Y ≤ -(1 / 10) := by
  have heps : 0 ≤ (SearchSettings.default : SearchSettings ℝ).solver.epsZero :=
    (tenToMinus_pos 12).le
  obtain ⟨hpoint, htrial, hsearch⟩ := direction_sound ⟨skewSystem (-1), #[]⟩
  have hexact : ∀ t tr,
      (solveScale (skewSystem (-1)) SearchSettings.default #[] t).outcome = .ok tr →
      ExactTrial (skewSystem (-1)) t tr := by
    intro t tr h
    obtain ⟨⟨hpos, -⟩, X, hrun, rfl⟩ := exists_of_solveScale_ok h
    have hX : X ∈ spectrahedron 2 := (FrankWolfe.solve_mem heps _ _ _ _).2 X hrun
    refine ⟨hpos, X, hX, fun Y hY => ?_, rfl⟩
    exact ((value_skewSystem_eq hY).trans (value_skewSystem_eq hX).symm).le
  obtain ⟨X₀, hrun⟩ := exists_runAt_skewSystem (-1) 1 #[]
  have hok := solveScale_of_run_ok ⟨zero_lt_one, rfl⟩ hrun
  obtain ⟨X, -, hmem, htr, hbound⟩ := htrial SearchSettings.default #[] (Bracket.start 1) _ hok
  have hX : X ∈ spectrahedron 2 := hmem heps
  rw [htr] at hok hbound
  have hvalue : Surrogate.value ⟨skewSystem (-1), 1⟩ X = -2 := by
    rw [value_skewSystem_eq hX]
    norm_num
  have hsens : Surrogate.sensitivity ⟨skewSystem (-1), 1⟩ X = -1 := sensitivity_skewSystem_eq hX
  have hside : (Bracket.start 1).Discards (Surrogate.sensitivity ⟨skewSystem (-1), 1⟩ X) 2 := by
    rw [hsens]
    exact (if_neg (by norm_num)).mpr one_le_two
  have hrejected : Rejected
      (fun t => (solveScale (skewSystem (-1)) SearchSettings.default #[] t).outcome)
      (skewSystem (-1)).eps (Bracket.start 1) 1
      ((Bracket.start 1).reject (Surrogate.sensitivity ⟨skewSystem (-1), 1⟩ X)) := by
    have hreject :
        ¬-(skewSystem (-1)).eps < (Surrogate.trialOf ⟨skewSystem (-1), 1⟩ X).value := by
      refine not_lt.2 (hvalue.trans_le ?_)
      show (-2 : ℝ) ≤ -(1 / 10)
      norm_num
    exact .step .start hok hreject
  have hexcludes := ((Bracket.ordered_start zero_lt_one).excludes_reject_iff).2 (Or.inr hside)
  refine ⟨_, X, hok, hX, rfl, hvalue, hsens, (hpoint 1 zero_lt_one X hX).2.1, fun Y hY => ?_⟩
  exact ⟨hbound 2 two_pos hside Y hY,
    hsearch _ hexact 1 1 _ hrejected 2 two_pos hexcludes Y hY⟩

end Feasibility

end Spectrahedron
