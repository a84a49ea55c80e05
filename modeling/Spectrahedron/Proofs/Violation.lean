import Mathlib.Order.ConditionallyCompleteLattice.Finset
import Spectrahedron.Proofs.Direction

/-!
# The surrogate and the worst violation

At the trace scale `t`, a matrix `X` violates the constraint `i` by `t Tr (A_i X) - b_i`. The soft
maximum of `m` exponents exceeds the largest of them by at most `ln m`, and the temperature is high
enough for `ln m` to be no more than the accuracy.

**Theorem (`Feasibility.worstViolation_le_neg_value_le`).** The negated surrogate is between the
worst violation and the worst violation plus the accuracy. So a matrix that meets every constraint
strictly is accepted, and one that misses some constraint by the accuracy is not.
-/

namespace Spectrahedron

open Scalar

namespace ConstraintSystem

/-- The temperature suffices for as many constraints as there are. -/
theorem log_count_le (system : ConstraintSystem ℝ) :
    Real.log system.count ≤ system.eps * system.temperature := by
  rw [← div_le_iff₀' system.eps_pos]
  unfold temperature
  rw [larger_eq]
  exact le_max_left _ _

/-- By how much a matrix violates a constraint. -/
def excess (system : ConstraintSystem ℝ) (X : Mat ℝ system.dim system.dim)
    (i : Fin system.count) : ℝ :=
  ((system.matrices.get i).toMatrix * X.toMatrix).trace - system.bounds.get i

end ConstraintSystem

/-! ## Violations -/

namespace Surrogate

variable (f : Surrogate ℝ) (X : Mat ℝ f.system.dim f.system.dim)

/-- By how much a matrix violates a constraint at the trace scale. -/
def violation (i : Fin f.system.count) : ℝ :=
  f.scale * ((f.system.matrices.get i).toMatrix * X.toMatrix).trace - f.system.bounds.get i

theorem violation_eq (i : Fin f.system.count) :
    f.violation X i
      = f.scale * (f.system.matrices.get i).traceProduct X - f.system.bounds.get i := by
  rw [violation, Mat.traceProduct_eq_trace]

/-- The violation at a trace scale is that of the scaled matrix. -/
theorem excess_scale (i : Fin f.system.count) :
    f.system.excess (X.scale f.scale) i = f.violation X i := by
  rw [ConstraintSystem.excess, ← Mat.traceProduct_eq_trace, traceProduct_scale, violation_eq]

/-- The worst violation. -/
noncomputable def worstViolation : ℝ := ⨆ i, f.violation X i

/-- The worst violation is that of a constraint. -/
theorem isGreatest_worstViolation :
    IsGreatest (Set.range (f.violation X)) (f.worstViolation X) := by
  have hnonempty : Nonempty (Fin f.system.count) := ⟨⟨0, f.system.count_pos⟩⟩
  refine ⟨exists_eq_ciSup_of_finite, ?_⟩
  rintro _ ⟨i, rfl⟩
  exact le_ciSup (Set.finite_range (f.violation X)).bddAbove i

theorem worstViolation_le_neg_value : f.worstViolation X ≤ -f.value X := by
  obtain ⟨⟨i, hi⟩, -⟩ := f.isGreatest_worstViolation X
  rw [← hi, violation_eq]
  exact f.violation_le X i

theorem neg_value_le_worstViolation_add : -f.value X ≤ f.worstViolation X + f.system.eps := by
  have hworst : ∀ i, f.scale * (f.system.matrices.get i).traceProduct X - f.system.bounds.get i
      ≤ f.worstViolation X := by
    intro i
    rw [← violation_eq]
    exact (f.isGreatest_worstViolation X).2 ⟨i, rfl⟩
  have hlog : Real.log f.system.count / f.temperature ≤ f.system.eps :=
    (div_le_iff₀ f.temperature_pos).2 f.system.log_count_le
  exact (f.neg_value_le X hworst).trans (by linarith)

/-- A constraint that is violated more than another weighs more. -/
theorem weight_lt_weight_iff {i j : Fin f.system.count} :
    f.weight X i < f.weight X j ↔ f.violation X i < f.violation X j := by
  unfold weight soft
  rw [get_weights_softMax, get_weights_softMax,
    div_lt_div_iff_of_pos_right (sum_exp_pos f.system.count_pos _), Real.exp_lt_exp]
  unfold exponents
  rw [Vec.get_ofFn, Vec.get_ofFn, ← violation_eq, ← violation_eq,
    mul_lt_mul_iff_right₀ f.temperature_pos]

variable {X}

/-- A matrix that meets every constraint strictly is accepted. -/
theorem lt_value_of_violation_neg (h : ∀ i, f.violation X i < 0) :
    -f.system.eps < f.value X := by
  obtain ⟨⟨i, hi⟩, -⟩ := f.isGreatest_worstViolation X
  have hneg : f.worstViolation X < 0 := hi ▸ h i
  have hvalue := f.neg_value_le_worstViolation_add X
  linarith

/-- A matrix that misses a constraint by the accuracy is rejected. -/
theorem value_le_of_le_violation {i : Fin f.system.count} (h : f.system.eps ≤ f.violation X i) :
    f.value X ≤ -f.system.eps := by
  have hworst := (f.isGreatest_worstViolation X).2 ⟨i, rfl⟩
  have hvalue := f.worstViolation_le_neg_value X
  linarith

end Surrogate

/-! ## Acceptance -/

namespace Feasibility

/-- **The surrogate is the worst violation up to the accuracy.** At every trace scale and every
matrix, the negated surrogate is at least the worst violation and exceeds it by at most the
accuracy. So the test of the search accepts each matrix that meets all constraints strictly, and no
matrix that misses one of them by the accuracy; this holds in particular of the matrices that its
trials return. -/
theorem worstViolation_le_neg_value_le (p : Feasibility ℝ) :
    (∀ t (X : p.Point),
      IsGreatest (Set.range ((p.surrogate t).violation X)) ((p.surrogate t).worstViolation X) ∧
      (p.surrogate t).worstViolation X ≤ -(p.surrogate t).value X ∧
      -(p.surrogate t).value X ≤ (p.surrogate t).worstViolation X + p.system.eps ∧
      ((∀ i, (p.surrogate t).violation X i < 0) →
        -p.system.eps < (p.surrogate t).value X) ∧
      ((∃ i, p.system.eps ≤ (p.surrogate t).violation X i) →
        ¬-p.system.eps < (p.surrogate t).value X)) ∧
    ∀ par work t tr, (solveScale p.system par work t).outcome = .ok tr →
      ((∀ i, p.system.excess tr.x i < 0) → -p.system.eps < tr.value) ∧
      ((∃ i, p.system.eps ≤ p.system.excess tr.x i) → ¬-p.system.eps < tr.value) := by
  refine ⟨fun t X => ⟨?_, ?_, ?_, ?_, ?_⟩, fun par work t tr h => ?_⟩
  · exact (p.surrogate t).isGreatest_worstViolation X
  · exact (p.surrogate t).worstViolation_le_neg_value X
  · exact (p.surrogate t).neg_value_le_worstViolation_add X
  · exact (p.surrogate t).lt_value_of_violation_neg
  · rintro ⟨i, hi⟩
    exact not_lt.2 ((p.surrogate t).value_le_of_le_violation hi)
  · obtain ⟨-, X, -, rfl⟩ := exists_of_solveScale_ok h
    have hexcess : ∀ i, p.system.excess (X.scale t) i = (p.surrogate t).violation X i :=
      (p.surrogate t).excess_scale X
    dsimp only
    simp only [hexcess]
    refine ⟨(p.surrogate t).lt_value_of_violation_neg, ?_⟩
    rintro ⟨i, hi⟩
    exact not_lt.2 ((p.surrogate t).value_le_of_le_violation hi)

/-- The system `Tr X ≤ high` and `-Tr X ≤ -low`, up to one eighth. -/
noncomputable abbrev stripSystem (low high : ℝ) : ConstraintSystem ℝ where
  dim := 2
  count := 2
  matrices := Vector.ofFn fun i => (Mat.identity ℝ 2).scale (if i.val = 0 then 1 else -1)
  bounds := Vector.ofFn fun i => if i.val = 0 then high else -low
  eps := 1 / 8
  dim_pos := Nat.two_pos
  count_pos := Nat.two_pos
  eps_pos := one_div_pos.2 (Nat.ofNat_pos (n := 8))
  eps_finite := rfl

section Strip

variable {low high t : ℝ} {X : Mat ℝ 2 2}

theorem traceProduct_stripSystem (hX : X ∈ spectrahedron 2) (i : Fin 2) :
    ((stripSystem low high).matrices.get i).traceProduct X = if i.val = 0 then 1 else -1 := by
  rw [Vec.get_ofFn, Mat.traceProduct_eq_trace, Mat.toMatrix_scale, Mat.toMatrix_identity,
    Matrix.smul_mul, Matrix.one_mul, Matrix.trace_smul, ← Mat.trace_eq_trace, hX.2, smul_eq_mul,
    mul_one]

theorem violation_stripSystem (hX : X ∈ spectrahedron 2) (i : Fin 2) :
    Surrogate.violation ⟨stripSystem low high, t⟩ X i
      = if i.val = 0 then t - high else low - t := by
  rw [Surrogate.violation_eq, traceProduct_stripSystem hX, Vec.get_ofFn]
  split
  · ring
  · ring

theorem sensitivity_stripSystem_pos_iff (hX : X ∈ spectrahedron 2) :
    0 < Surrogate.sensitivity ⟨stripSystem low high, t⟩ X ↔ 2 * t < low + high := by
  have hsens : Surrogate.sensitivity ⟨stripSystem low high, t⟩ X
      = Surrogate.weight ⟨stripSystem low high, t⟩ X (1 : Fin 2)
        - Surrogate.weight ⟨stripSystem low high, t⟩ X (0 : Fin 2) := by
    rw [Surrogate.sensitivity_eq, Fin.sum_univ_two, traceProduct_stripSystem hX,
      traceProduct_stripSystem hX, Fin.val_zero, Fin.val_one, if_pos rfl, if_neg Nat.one_ne_zero]
    ring
  rw [hsens, sub_pos, Surrogate.weight_lt_weight_iff, violation_stripSystem hX,
    violation_stripSystem hX, Fin.val_zero, Fin.val_one, if_pos rfl, if_neg Nat.one_ne_zero]
  constructor
  · intro h
    linarith
  · intro h
    linarith

end Strip

theorem exists_solveScale_stripSystem (low high : ℝ) (par : SearchSettings ℝ)
    (hsolver : par.solver = Settings.default) (hcurv : par.curvature = none) {t : ℝ} (ht : 0 < t)
    (work : Array ℝ) :
    ∃ X ∈ spectrahedron 2, (solveScale (stripSystem low high) par work t).outcome
      = .ok (Surrogate.trialOf ⟨stripSystem low high, t⟩ X) := by
  have hrun : ∃ X, (runAt (stripSystem low high) par work t).outcome = .ok X := by
    refine exists_runAt_of_isDiag (fun i r c hrc => ?_) ?_ ?_ ?_ ?_ t work
    · rw [Vec.get_ofFn]
      simp [hrc, hrc.symm]
    · rw [hsolver]
      exact (by decide : 2 < 3)
    · rw [hsolver]
      exact (by decide : 0 < 300)
    · rw [hsolver]
      exact (tenToMinus_pos 8).le
    · rw [hcurv]
      intro c hc
      cases hc
  obtain ⟨X, hX⟩ := hrun
  have hsettings : 0 ≤ par.solver.epsZero := by
    rw [hsolver]
    exact (tenToMinus_pos 12).le
  exact ⟨X, (FrankWolfe.solve_mem hsettings _ _ _ _).2 X hX, solveScale_of_run_ok ⟨ht, rfl⟩ hX⟩

/-- At the scale `3/2` the violations are both `-1/2`, and the trial is accepted; at the scale three
one of them is one, and the trial is rejected. -/
theorem stripSystem_worstViolation_le_neg_value_le :
    (∃ X ∈ spectrahedron 2, (∀ i, Surrogate.violation ⟨stripSystem 1 2, 3 / 2⟩ X i < 0) ∧
      -(1 / 8) < Surrogate.value ⟨stripSystem 1 2, 3 / 2⟩ X) ∧
    (∃ Y ∈ spectrahedron 2, (∃ i, 1 / 8 ≤ Surrogate.violation ⟨stripSystem 1 2, 3⟩ Y i) ∧
      ¬-(1 / 8) < Surrogate.value ⟨stripSystem 1 2, 3⟩ Y) ∧
    (∃ tr, (solveScale (stripSystem 1 2) SearchSettings.default #[] (3 / 2)).outcome = .ok tr ∧
      (∀ i, (stripSystem 1 2).excess tr.x i < 0) ∧ -(1 / 8) < tr.value) ∧
    ∃ tr, (solveScale (stripSystem 1 2) SearchSettings.default #[] 3).outcome = .ok tr ∧
      (∃ i, 1 / 8 ≤ (stripSystem 1 2).excess tr.x i) ∧ ¬-(1 / 8) < tr.value := by
  obtain ⟨hvalue, htrial⟩ := worstViolation_le_neg_value_le ⟨stripSystem 1 2, #[]⟩
  have hpos : (0 : ℝ) < 3 / 2 ∧ (0 : ℝ) < 3 := by norm_num
  obtain ⟨X, hX, hlow⟩ := exists_solveScale_stripSystem 1 2 .default rfl rfl hpos.1 #[]
  obtain ⟨Y, hY, hhigh⟩ := exists_solveScale_stripSystem 1 2 .default rfl rfl hpos.2 #[]
  have hmet : ∀ i, Surrogate.violation ⟨stripSystem 1 2, 3 / 2⟩ X i < 0 := by
    intro i
    rw [violation_stripSystem hX]
    split
    · norm_num
    · norm_num
  have hmissed : 1 / 8 ≤ Surrogate.violation ⟨stripSystem 1 2, 3⟩ Y (0 : Fin 2) := by
    rw [violation_stripSystem hY, Fin.val_zero, if_pos rfl]
    norm_num
  have hexcess : ∀ i, (stripSystem 1 2).excess (X.scale (3 / 2)) i < 0 := fun i =>
    (Surrogate.excess_scale ⟨stripSystem 1 2, 3 / 2⟩ X i).trans_lt (hmet i)
  have hexcess' : 1 / 8 ≤ (stripSystem 1 2).excess (Y.scale 3) (0 : Fin 2) :=
    hmissed.trans_eq (Surrogate.excess_scale ⟨stripSystem 1 2, 3⟩ Y (0 : Fin 2)).symm
  refine ⟨⟨X, hX, hmet, (hvalue _ X).2.2.2.1 hmet⟩,
    ⟨Y, hY, ⟨_, hmissed⟩, (hvalue _ Y).2.2.2.2 ⟨_, hmissed⟩⟩, ⟨_, hlow, hexcess, ?_⟩, _, hhigh,
    ⟨0, hexcess'⟩, ?_⟩
  · exact (htrial _ #[] _ _ hlow).1 hexcess
  · exact (htrial _ #[] _ _ hhigh).2 ⟨0, hexcess'⟩

end Feasibility

end Spectrahedron
