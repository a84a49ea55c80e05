import Mathlib.LinearAlgebra.Matrix.IsDiag
import Spectrahedron.Proofs.Jacobi
import Spectrahedron.Proofs.WorkLength

/-!
# Diagonal gradients

A matrix that is diagonal already has nothing to rotate: the first sweep ends its decomposition. So
the dense extractor does not fail on diagonal gradients, and neither does a solve.

**Theorem (`exists_solve_eq_ok_of_isDiag`).** A solve whose gradients are diagonal and whose
extractor is the dense one returns.
-/

namespace Spectrahedron

open Scalar

variable {n : ℕ}

/-! ## The decomposition of a diagonal matrix -/

namespace Diagonalization

theorem not_significant_of_isDiag {X : Mat ℝ n n} (hX : X.toMatrix.IsDiag) {i j : Fin n}
    (hij : i < j) {tol : ℝ} (htol : 0 ≤ tol) (sqNorm : ℝ) : ¬significant tol sqNorm X i j := by
  intro hsig
  exact get_ne_zero_of_significant htol hsig (hX hij.ne)

theorem sweep_of_isDiag {s : Diagonalization ℝ n} (hs : s.mat.toMatrix.IsDiag) {tol : ℝ}
    (htol : 0 ≤ tol) (sqNorm : ℝ) : sweep tol sqNorm s = (s, false) := by
  have hvisits : ∀ ps : List (Fin n × Fin n), (∀ p ∈ ps, p.1 < p.2) →
      ps.foldl (visit tol sqNorm) (s, false) = (s, false) := by
    intro ps hps
    induction ps with
    | nil => rfl
    | cons p ps ih =>
      have hvisit : visit tol sqNorm (s, false) p = (s, false) :=
        if_neg (not_significant_of_isDiag hs (hps p List.mem_cons_self) htol sqNorm)
      rw [List.foldl_cons, hvisit]
      exact ih fun p' hp' => hps p' (List.mem_cons_of_mem _ hp')
  exact hvisits (pairs n) fun _ => mem_pairs.1

end Diagonalization

/-- The first sweep finds nothing to rotate. -/
theorem eigen_of_isDiag {A : Mat ℝ n n} (hA : A.toMatrix.IsDiag) (epsZero : ℝ) {maxSweeps : ℕ}
    (hmax : 0 < maxSweeps) : A.eigen epsZero maxSweeps = ⟨Diagonalization.start A, true⟩ := by
  obtain ⟨k, rfl⟩ := Nat.exists_eq_succ_of_ne_zero hmax.ne'
  have hsweep := Diagonalization.sweep_of_isDiag (s := Diagonalization.start A) hA
    (mul_self_nonneg epsZero) (sumSquares A.data)
  unfold Mat.eigen
  dsimp only
  rw [Diagonalization.sweeps, hsweep]

theorem converged_eigen_of_isDiag {A : Mat ℝ n n} (hA : A.toMatrix.IsDiag) (epsZero : ℝ)
    {maxSweeps : ℕ} (hmax : 0 < maxSweeps) : (A.eigen epsZero maxSweeps).converged = true := by
  rw [eigen_of_isDiag hA epsZero hmax]

theorem Extractor.exists_topEig_eq_ok_of_isDiag {G : Mat ℝ n n} (hG : G.toMatrix.IsDiag)
    (hn : 0 < n) {d : Dense ℝ} (hmax : 0 < d.maxSweeps) (tol : ℝ) (vec : Vector ℝ n)
    {work : Array ℝ} (hwork : Dense.workLength n ≤ work.size) :
    ∃ value, ((Extractor.dense d).topEig G tol vec work).outcome = .ok value := by
  have hconv : (d.decompose G).converged = true := converged_eigen_of_isDiag hG d.epsZero hmax
  unfold topEig
  dsimp only
  rw [dif_pos hwork]
  unfold Dense.topEig Dense.topPair
  dsimp only [Extraction.mapWork]
  rw [if_pos hconv, dif_pos hn]
  exact ⟨_, rfl⟩

/-! ## Runs with diagonal gradients -/

/-- An objective whose gradients do not fail and are diagonal. -/
def Objective.HasDiagonalGradients (obj : Objective ℝ n) : Prop :=
  ∀ calls x old, ∃ g, obj.gradient calls x old = .ok g ∧ g.toMatrix.IsDiag

theorem Objective.isDiag_diagonalMatrix (d : Fin n → ℝ) : (diagonalMatrix d).toMatrix.IsDiag := by
  intro r c hrc
  show (diagonalMatrix d).get r c = 0
  unfold diagonalMatrix
  rw [Mat.get_ofFn, if_neg hrc]

theorem Objective.hasDiagonalGradients_diagonalSquares :
    (diagonalSquares : Objective ℝ n).HasDiagonalGradients :=
  fun _ _ _ => ⟨_, rfl, isDiag_diagonalMatrix _⟩

namespace FrankWolfe

variable {s : Settings ℝ} {obj : Objective ℝ n} {curvature : Option ℝ}

theorem advance_ne_error_of_isDiag (hobj : obj.HasDiagonalGradients) (hn : 0 < n)
    (hdense : n < s.lanczosMinDim) (hsweeps : 0 < s.maxIterEig) (hsym : 0 ≤ s.epsSym) (k : ℕ)
    {st : State ℝ n} (hwork : Dense.workLength n ≤ st.regions.eigWork.size) (stop : Stop) :
    (advance (problem s obj curvature) k st).outcome ≠ .error stop := by
  intro h
  obtain ⟨g, hg, hdiag⟩ := hobj k st.regions.point st.regions.gradient
  have hG : symmetricGradient (problem s obj curvature) k st = .ok g :=
    symmetricGradient_of_isSymm hg hdiag.isSymm hsym
  have hextractor : (problem s obj curvature).extractor = .dense ⟨s.epsZero, s.maxIterEig⟩ :=
    if_neg (not_le.2 hdense)
  rcases advance_error_cases h with hgrad | ⟨G, hG', hext⟩
  · rw [hG] at hgrad
    cases hgrad
  · rw [hG] at hG'
    cases hG'
    obtain ⟨value, hvalue⟩ := Extractor.exists_topEig_eq_ok_of_isDiag hdiag hn
      (d := ⟨s.epsZero, s.maxIterEig⟩) hsweeps (eigTolerance s curvature k)
      (st.random.fill (· - 1 / two) st.regions.direction).1 hwork
    unfold extraction at hext
    rw [hextractor] at hext
    cases hvalue.symm.trans hext

theorem exists_solve_eq_ok_of_isDiag (hobj : obj.HasDiagonalGradients) (hn : 0 < n)
    (hdense : n < s.lanczosMinDim) (hsweeps : 0 < s.maxIterEig) (hsym : 0 ≤ s.epsSym)
    {iterations : ℕ} (hiter : 0 < iterations) (hcurv : ∀ c ∈ curvature, 0 < c) {work : Array ℝ}
    (hwork : workLength s n ≤ work.size) :
    ∃ X, (solve s obj iterations curvature work).outcome = .ok X := by
  have hlength : workLength s n = Regions.size n + Dense.workLength n := by
    unfold workLength Extractor.selectWorkLength
    rw [if_neg (not_le.2 hdense)]
  have hsize : Regions.size n ≤ work.size := size_le_of_workLength_le hwork
  obtain ⟨stop, st, hends, hout⟩ :=
    ends_run s obj iterations curvature (Regions.ofSlice n work hsize)
  rw [solve_eq_run hn hiter hcurv hwork, hout]
  generalize (run s obj iterations curvature _).trail.toCourse = c at hends
  cases hends with
  | finished hreach => exact ⟨_, rfl⟩
  | stopped hreach hk hstop =>
    refine absurd hstop (advance_ne_error_of_isDiag hobj hn hdense hsweeps hsym _ ?_ _)
    have hstart : (initialState s (Regions.ofSlice n work hsize)).regions.eigWork.size
        = work.size - Regions.size n := Regions.size_eigWork_ofSlice work hsize
    rw [hreach.size_eigWork.1, hstart]
    omega

/-- A run with the default settings on the negated squares of the diagonal, in dimension two. -/
noncomputable def squaresRun (iterations : ℕ) : Run ℝ 2 :=
  solve Settings.default Objective.diagonalSquares iterations none
    (Array.replicate (workLength (Settings.default : Settings ℝ) 2) 0)

theorem exists_squaresRun_eq_ok {iterations : ℕ} (hiter : 0 < iterations) :
    ∃ X, (squaresRun iterations).outcome = .ok X := by
  have hdense : 2 < (Settings.default : Settings ℝ).lanczosMinDim := by decide
  refine exists_solve_eq_ok_of_isDiag Objective.hasDiagonalGradients_diagonalSquares Nat.two_pos
    hdense ?_ (tenToMinus_pos 8).le hiter ?_ ?_
  · decide
  · intro c hc
    cases hc
  · rw [Array.size_replicate]

end FrankWolfe

end Spectrahedron
