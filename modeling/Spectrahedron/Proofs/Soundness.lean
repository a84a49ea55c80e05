import Spectrahedron.Proofs.Iterates
import Spectrahedron.Proofs.Surrogate

/-!
# Soundness of the search

A trial is accepted when its surrogate exceeds the negated accuracy. The surrogate bounds the
violation of each constraint at `t X`, where `X` is the solution of a run and so positive
semidefinite of trace one.

**Theorem (`Feasibility.solve_sound`).** A matrix that the search returns is positive semidefinite,
has the trace that is returned with it, and meets every constraint within the accuracy.
-/

namespace Spectrahedron

open FrankWolfe

theorem traceProduct_scale {n : ℕ} (A X : Mat ℝ n n) (t : ℝ) :
    A.traceProduct (X.scale t) = t * A.traceProduct X := by
  rw [Mat.traceProduct_eq_trace, Mat.traceProduct_eq_trace, Mat.toMatrix_scale, Matrix.mul_smul,
    Matrix.trace_smul, smul_eq_mul]

namespace ConstraintSystem

/-- A matrix that is symmetric and positive semidefinite and meets every constraint. -/
structure Meets (system : ConstraintSystem ℝ) (X : Mat ℝ system.dim system.dim) : Prop where
  isSymm : X.toMatrix.IsSymm
  posSemidef : X.toMatrix.PosSemidef
  lt_bound : ∀ i, (system.matrices.get i).traceProduct X < system.bounds.get i + system.eps

end ConstraintSystem

namespace Feasibility

variable {system : ConstraintSystem ℝ} {par : SearchSettings ℝ} {work : Array ℝ} {scale : ℝ}
  {t : Trial ℝ (Mat ℝ system.dim system.dim)}

/-- A trial that is accepted meets every constraint. -/
theorem meets_of_solveScale_ok (h : (solveScale system par work scale).outcome = .ok t)
    (haccept : -system.eps < t.value) : system.Meets t.x := by
  obtain ⟨⟨hpos, -⟩, X, hrun, rfl⟩ := exists_of_solveScale_ok h
  have hX : (X.scale scale).toMatrix.PosSemidef :=
    posSemidef_scale (posSemidef_of_solve_ok hrun) hpos.le
  refine ⟨Matrix.isHermitian_iff_isSymm.1 hX.isHermitian, hX, ?_⟩
  intro i
  have hviolation := Surrogate.violation_le ⟨system, scale⟩ X i
  dsimp only at hviolation haccept
  rw [traceProduct_scale]
  linarith

theorem trace_of_solveScale_ok (hpar : 0 ≤ par.solver.epsZero)
    (h : (solveScale system par work scale).outcome = .ok t) : t.x.trace = scale ∧ 0 < scale := by
  obtain ⟨⟨hpos, -⟩, X, hrun, rfl⟩ := exists_of_solveScale_ok h
  have hmem : X ∈ spectrahedron system.dim := (solve_mem hpar _ _ _ _).2 X hrun
  refine ⟨?_, hpos⟩
  rw [trace_scale, hmem.2, mul_one]

/-- The run of a trial returns when the symmetric parts of the constraint matrices are diagonal and
the dense extractor is in use. -/
theorem exists_runAt_of_isDiag
    (hdiag : ∀ i r c, r ≠ c →
      (system.matrices.get i).get r c + (system.matrices.get i).get c r = 0)
    (hdense : system.dim < par.solver.lanczosMinDim) (hsweeps : 0 < par.solver.maxIterEig)
    (hsym : 0 ≤ par.solver.epsSym) (hcurv : ∀ c ∈ par.curvature, 0 < c) (scale : ℝ)
    (work : Array ℝ) : ∃ X, (runAt system par work scale).outcome = .ok X := by
  have hobj : (system.objectiveAt scale).HasDiagonalGradients := fun calls x old =>
    ⟨_, rfl, Surrogate.isDiag_gradient ⟨system, scale⟩ x old hdiag⟩
  exact exists_solve_eq_ok_of_isDiag hobj system.dim_pos hdense hsweeps hsym system.iterations_pos
    hcurv (size_resize_work _ work 0).ge

/-- **Soundness.** A search that returns has found a matrix of the trace that it returns, which
meets every constraint, by a surrogate that exceeds the negated accuracy, in at most as many solves
as allowed. Without a matrix that meets every constraint no search returns, whatever its parameters
are. -/
theorem solve_sound (p : Feasibility ℝ) :
    (∀ (par : SearchSettings ℝ) (sol : Solution ℝ p.Point), 0 ≤ par.solver.epsZero →
      (p.solve par).outcome = .ok sol →
        p.system.Meets sol.x ∧ sol.x.trace = sol.scale ∧ 0 < sol.scale ∧
          -p.system.eps < sol.value ∧ 1 ≤ sol.solves ∧ sol.solves ≤ par.maxIter) ∧
      ((¬∃ X, p.system.Meets X) → ∀ par sol, (p.solve par).outcome ≠ .ok sol) := by
  refine ⟨?_, ?_⟩
  · intro par sol hpar h
    obtain ⟨⟨state, t, ht, haccept, hx, hvalue⟩, hlow, hhigh⟩ := exists_of_search_ok h
    obtain ⟨htrace, hpos⟩ := trace_of_solveScale_ok hpar ht
    rw [hx, hvalue]
    exact ⟨meets_of_solveScale_ok ht haccept, htrace, hpos, haccept, hlow, by omega⟩
  · intro hnone par sol h
    obtain ⟨⟨state, t, ht, haccept, -, -⟩, -, -⟩ := exists_of_search_ok h
    exact hnone ⟨t.x, meets_of_solveScale_ok ht haccept⟩

/-- The matrix with ones on and above the diagonal and minus one below it. -/
noncomputable def skewMatrix : Mat ℝ 2 2 := Mat.ofFn fun r c => if r ≤ c then 1 else -1

theorem skewMatrix_add {r c : Fin 2} (hrc : r ≠ c) :
    skewMatrix.get r c + skewMatrix.get c r = 0 := by
  unfold skewMatrix
  rw [Mat.get_ofFn, Mat.get_ofFn]
  rcases lt_or_gt_of_ne hrc with hlt | hlt
  · rw [if_pos hlt.le, if_neg hlt.not_ge, add_neg_cancel]
  · rw [if_neg hlt.not_ge, if_pos hlt.le, neg_add_cancel]

theorem traceProduct_skewMatrix {X : Mat ℝ 2 2} (hX : X.toMatrix.IsSymm) :
    skewMatrix.traceProduct X = X.trace := by
  have hsymm : X.get 0 1 = X.get 1 0 := hX.apply 1 0
  rw [Mat.traceProduct_eq, Mat.trace_eq]
  simp [Fin.sum_univ_two, skewMatrix, hsymm]

/-- The system `Tr (A X) ≤ bound + 1/10` for that matrix. -/
noncomputable abbrev skewSystem (bound : ℝ) : ConstraintSystem ℝ where
  dim := 2
  count := 1
  matrices := Vector.ofFn fun _ => skewMatrix
  bounds := Vector.ofFn fun _ => bound
  eps := 1 / 10
  dim_pos := Nat.two_pos
  count_pos := Nat.one_pos
  eps_pos := one_div_pos.2 (Nat.ofNat_pos (n := 10))
  eps_finite := rfl

theorem value_skewSystem {X : Mat ℝ 2 2} (hX : X ∈ spectrahedron 2) :
    0 ≤ Surrogate.value ⟨skewSystem 1, 1⟩ X := by
  have hle := Surrogate.neg_value_le ⟨skewSystem 1, 1⟩ X (b := 0) ?_
  · rw [Nat.cast_one, Real.log_one, zero_div, add_zero] at hle
    exact neg_nonpos.1 hle
  · intro i
    rw [Vec.get_ofFn, Vec.get_ofFn, traceProduct_skewMatrix (isSymm_of_mem hX), hX.2, one_mul,
      sub_self]

theorem exists_runAt_skewSystem (bound scale : ℝ) (work : Array ℝ) :
    ∃ X, (runAt (skewSystem bound) SearchSettings.default work scale).outcome = .ok X := by
  have hdense : 2 < (SearchSettings.default : SearchSettings ℝ).solver.lanczosMinDim := by decide
  refine exists_runAt_of_isDiag (fun i r c hrc => ?_) hdense ?_ (tenToMinus_pos 8).le ?_ scale work
  · rw [Vec.get_ofFn]
    exact skewMatrix_add hrc
  · decide
  · intro c hc
    cases hc

/-- The search finds a matrix for the bound one in its first trial. For the bound minus one there is
none, and no search returns. -/
theorem skewSystem_solve_sound :
    (0 ≤ (SearchSettings.default : SearchSettings ℝ).solver.epsZero ∧
      ∃ sol, (Feasibility.solve ⟨skewSystem 1, #[]⟩ SearchSettings.default).outcome = .ok sol ∧
        (skewSystem 1).Meets sol.x ∧ sol.x.trace = sol.scale) ∧
    ((¬∃ X, (skewSystem (-1)).Meets X) ∧
      ∀ par sol, (Feasibility.solve ⟨skewSystem (-1), #[]⟩ par).outcome ≠ .ok sol) := by
  have heps : 0 ≤ (SearchSettings.default : SearchSettings ℝ).solver.epsZero :=
    (tenToMinus_pos 12).le
  refine ⟨⟨heps, ?_⟩, ?_⟩
  · obtain ⟨X, hX⟩ := exists_runAt_skewSystem 1 1 #[]
    have hmem : X ∈ spectrahedron 2 := (solve_mem heps _ _ _ _).2 X hX
    have hscale : Bracket.admissible (1 : ℝ) := ⟨zero_lt_one, rfl⟩
    have haccept : -(skewSystem 1).eps < Surrogate.value ⟨skewSystem 1, 1⟩ X :=
      (neg_lt_zero.2 (skewSystem 1).eps_pos).trans_le (value_skewSystem hmem)
    have hsearch := search_of_accept (b := Bracket.start 1) (solveScale_of_run_ok hscale hX)
      haccept 50 49 0 #[.searchStarted, .searchSettings SearchSettings.default]
    obtain ⟨hmeets, htrace, -⟩ := (solve_sound ⟨skewSystem 1, #[]⟩).1 _ _ heps hsearch
    exact ⟨_, hsearch, hmeets, htrace⟩
  · have hnone : ¬∃ X, (skewSystem (-1)).Meets X := by
      rintro ⟨X, hX⟩
      have hlt : X.trace < -1 + 1 / 10 := by
        have hbound := hX.lt_bound (0 : Fin 1)
        rw [Vec.get_ofFn, Vec.get_ofFn, traceProduct_skewMatrix hX.isSymm] at hbound
        exact hbound
      have htrace : 0 ≤ X.trace := by
        rw [Mat.trace_eq_trace]
        exact hX.posSemidef.trace_nonneg
      linarith
    exact ⟨hnone, (solve_sound ⟨skewSystem (-1), #[]⟩).2 hnone⟩

end Feasibility

end Spectrahedron
