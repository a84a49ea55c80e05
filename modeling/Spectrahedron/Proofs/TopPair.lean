import Spectrahedron.Proofs.Diagonal
import Spectrahedron.Proofs.Extraction
import Spectrahedron.Proofs.Similarity
import Spectrahedron.Proofs.Tridiagonal

/-!
# The contract of the extractors

A unit vector at which the quadratic form is close to a value that is not far below the largest
eigenvalue is close to a top eigenvector, in the sense that counts for a solve. The dense extractor
returns the largest entry on the diagonal of a matrix similar to the given one, whose other entries
are small. A Krylov basis of the whole space does the same for its tridiagonal matrix, which is
similar to the given one up to the couplings that were dropped. So the starting vector does not
matter, even if it lies in an invariant subspace without a top eigenvector.

**Theorem (`Extractor.topEig_contract`).** Either extractor approximates the top eigenpair, if its
bases are not smaller than the matrix, and the first restart is the last.
-/

namespace Spectrahedron

open Scalar Matrix

variable {n m : ℕ}

/-! ## Approximations -/

/-- A value and a vector are the top eigenpair of a matrix up to an error. -/
structure ApproximatesTop (G : Mat ℝ n n) (d value : ℝ) (v : Vector ℝ n) : Prop where
  normalized : Normalized v
  abs_sub_le : |value - G.topEigenvalue| ≤ d
  le_quadratic : G.topEigenvalue - d ≤ G.quadratic v

section Approximations

variable {G : Mat ℝ n n} {d d' value value' : ℝ} {v v' : Vector ℝ n}

theorem ApproximatesTop.mono (h : ApproximatesTop G d value v) (hd : d ≤ d') :
    ApproximatesTop G d' value v :=
  ⟨h.normalized, h.abs_sub_le.trans hd, (sub_le_sub_left hd _).trans h.le_quadratic⟩

/-- Two approximations with the same error. -/
theorem ApproximatesTop.abs_sub_le_two_mul (h : ApproximatesTop G d value v)
    (h' : ApproximatesTop G d value' v') : |value - value'| ≤ 2 * d := by
  obtain ⟨hlow, hhigh⟩ := abs_le.1 h.abs_sub_le
  obtain ⟨hlow', hhigh'⟩ := abs_le.1 h'.abs_sub_le
  exact abs_le.2 ⟨by linarith, by linarith⟩

/-- It suffices that the quadratic form is close to the value, and the value not far below the
largest eigenvalue. -/
theorem approximatesTop_of_quadratic (hG : G.toMatrix.IsSymm) (hv : Normalized v)
    (hquadratic : |G.quadratic v - value| ≤ d) (hd' : 0 ≤ d')
    (htop : G.topEigenvalue ≤ value + d') : ApproximatesTop G (d + d') value v := by
  have hle := quadratic_le_topEigenvalue hG hv
  obtain ⟨hlow, hhigh⟩ := abs_le.1 hquadratic
  have hd : 0 ≤ d := (abs_nonneg _).trans hquadratic
  exact ⟨hv, abs_le.2 ⟨by linarith, by linarith⟩, by linarith⟩

theorem approximatesTop_of_quadratic_eq (hG : G.toMatrix.IsSymm) (hv : Normalized v)
    (hquadratic : G.quadratic v = value) (hd : 0 ≤ d) (htop : G.topEigenvalue ≤ value + d) :
    ApproximatesTop G d value v := by
  have hzero : |G.quadratic v - value| ≤ 0 := by
    rw [hquadratic, sub_self, abs_zero]
  rw [← zero_add d]
  exact approximatesTop_of_quadratic hG hv hzero hd htop

theorem topEigenvalue_le_norm (hn : 0 < n) (hG : G.toMatrix.IsSymm) : G.topEigenvalue ≤ G.norm :=
  topEigenvalue_le hn hG fun _ hv => (abs_le.1 (abs_quadratic_le_norm G hv)).2

end Approximations

/-! ## The dense extractor -/

namespace Dense

variable {d : Dense ℝ} {G : Mat ℝ n n} {vec : Vector ℝ n} {w : Regions ℝ n} {value : ℝ}
  (hd : 0 ≤ d.epsZero) (hn : 0 < n) (hG : G.toMatrix.IsSymm)
  (h : (d.topEig G vec w).outcome = .ok value)

include hG h

theorem quadratic_topEig : G.quadratic (d.topEig G vec w).vec = value := by
  obtain ⟨-, i, hvalue, -, hvec⟩ := exists_of_topEig_ok h
  rw [hvec, hvalue]
  exact quadratic_col_eigen hG d.epsZero d.maxSweeps i

include hd hn

theorem approximatesTop_topEig :
    ApproximatesTop G (n * (d.epsZero * G.norm)) value (d.topEig G vec w).vec := by
  obtain ⟨hconv, -, -, hmax, -⟩ := exists_of_topEig_ok h
  exact approximatesTop_of_quadratic_eq hG (d.normalized_topEig G vec w h) (quadratic_topEig hG h)
    (mul_nonneg n.cast_nonneg (mul_nonneg hd G.zero_le_norm))
    (topEigenvalue_le_eigen hG hd hconv hn hmax)

omit hd in
/-- A matrix whose norm is small has small eigenvalues only. -/
theorem approximatesTop_topEig_of_norm_le {eps : ℝ} (hsmall : G.norm ≤ eps) :
    ApproximatesTop G (2 * eps) value (d.topEig G vec w).vec := by
  have hv := d.normalized_topEig G vec w h
  have hvalue := quadratic_topEig hG h
  have hlow := (abs_le.1 (abs_quadratic_le_norm G hv)).1
  have htop := topEigenvalue_le_norm hn hG
  have heps : 0 ≤ eps := G.zero_le_norm.trans hsmall
  rw [hvalue] at hlow
  exact approximatesTop_of_quadratic_eq hG hv hvalue (by linarith) (by linarith)

end Dense

/-! ## The Lanczos extractor -/

namespace Lanczos

section Restart

variable {l : Lanczos ℝ} {G : Mat ℝ n n} {hm : 0 < m} {hmn : m ≤ n} {v : Vector ℝ n}
  {K : Krylov ℝ n m} {value residual : ℝ} (hl : 0 ≤ l.epsZero) (hG : G.toMatrix.IsSymm)

include hl hG

omit hG in
theorem recurs_basisFrom (j : Fin m) :
    (l.basisFrom G G.norm hm hmn v K).Recurs G (l.epsZero * G.norm) j :=
  Krylov.recurs_build (mul_nonneg hl G.zero_le_norm) hm hmn (normalized_normalize hl v _) K j

theorem abs_compress_basisFrom_sub_le (i j : Fin m) :
    |((l.basisFrom G G.norm hm hmn v K).basis.compress G
      - (l.basisFrom G G.norm hm hmn v K).tridiagonal.toMatrix) i j| ≤ l.epsZero * G.norm :=
  Krylov.abs_compress_sub_le (orthonormalColumns_basisFrom hl G.zero_le_norm) hG
    (recurs_basisFrom hl) (mul_nonneg hl G.zero_le_norm) i j

theorem norm_tridiagonal_basisFrom_le :
    (l.basisFrom G G.norm hm hmn v K).tridiagonal.norm ≤ G.norm :=
  Krylov.norm_tridiagonal_le (orthonormalColumns_basisFrom hl G.zero_le_norm) hG
    (recurs_basisFrom hl)

/-- In the coordinates of the basis, the quadratic form of the matrix is close to that of the
tridiagonal matrix. -/
theorem abs_compress_basisFrom_mulVec_sub_le (y : Fin m → ℝ) (hy : y ⬝ᵥ y = 1) :
    |y ⬝ᵥ ((l.basisFrom G G.norm hm hmn v K).basis.compress G *ᵥ y)
      - y ⬝ᵥ ((l.basisFrom G G.norm hm hmn v K).tridiagonal.toMatrix *ᵥ y)|
      ≤ m * (l.epsZero * G.norm) := by
  have hsmall := abs_dotProduct_mulVec_le
    (E := (l.basisFrom G G.norm hm hmn v K).basis.compress G
      - (l.basisFrom G G.norm hm hmn v K).tridiagonal.toMatrix)
    (abs_compress_basisFrom_sub_le hl hG) y
  rwa [hy, mul_one, sub_mulVec, dotProduct_sub] at hsmall

variable (h : (l.restart G G.norm hm hmn v K).ritz = some (value, residual))

include h

theorem abs_quadratic_restart_sub_le :
    |G.quadratic (l.restart G G.norm hm hmn v K).vec - value| ≤ m * (l.epsZero * G.norm) := by
  obtain ⟨-, i, hvalue, -, -, hvec⟩ := exists_of_restart_eq_some h
  have hs : Normalized ((l.ritzPairs G G.norm hm hmn v K).basis.col i) :=
    (orthonormalColumns_eigen _ _ _).normalized_col i
  have hritz : value = _ ⬝ᵥ _ := hvalue.trans (quadratic_col_eigen
    (Krylov.isSymm_tridiagonal (l.basisFrom G G.norm hm hmn v K)) l.epsZero l.maxIter i).symm
  rw [Mat.quadratic, hvec, Krylov.get_combine (orthonormalColumns_basisFrom hl G.zero_le_norm) hs,
    ← Mat.dotProduct_compress_mulVec, hritz]
  exact abs_compress_basisFrom_mulVec_sub_le hl hG _ hs

theorem topEigenvalue_tridiagonal_le :
    (l.basisFrom G G.norm hm hmn v K).tridiagonal.topEigenvalue
      ≤ value + m * (l.epsZero * G.norm) := by
  obtain ⟨hconv, -, -, hmax, -, -⟩ := exists_of_restart_eq_some h
  have hnorm : (l.basisFrom G G.norm hm hmn v K).tridiagonal.norm ≤ G.norm :=
    norm_tridiagonal_basisFrom_le hl hG
  calc (l.basisFrom G G.norm hm hmn v K).tridiagonal.topEigenvalue
      ≤ value + m * (l.epsZero * (l.basisFrom G G.norm hm hmn v K).tridiagonal.norm) :=
        topEigenvalue_le_eigen (Krylov.isSymm_tridiagonal _) hl hconv hm hmax
    _ ≤ value + m * (l.epsZero * G.norm) := by gcongr

/-- The Ritz value of a basis of the whole space is not far below the largest eigenvalue. -/
theorem topEigenvalue_le_restart (hfull : m = n) :
    G.topEigenvalue ≤ value + 2 * (n * (l.epsZero * G.norm)) := by
  have htri := topEigenvalue_tridiagonal_le hl hG h
  subst hfull
  have hB : (l.basisFrom G G.norm hm hmn v K).basis.OrthonormalColumns :=
    orthonormalColumns_basisFrom hl G.zero_le_norm
  refine topEigenvalue_le_of_compress hm hG hB fun y hy => ?_
  have hclose : y ⬝ᵥ ((l.basisFrom G G.norm hm hmn v K).basis.compress G *ᵥ y)
      - y ⬝ᵥ ((l.basisFrom G G.norm hm hmn v K).tridiagonal.toMatrix *ᵥ y)
      ≤ m * (l.epsZero * G.norm) :=
    (abs_le.1 (abs_compress_basisFrom_mulVec_sub_le hl hG y hy)).2
  have hform := dotProduct_mulVec_le_topEigenvalue
    (Krylov.isSymm_tridiagonal (l.basisFrom G G.norm hm hmn v K)) y
  rw [hy, mul_one] at hform
  linarith

theorem approximatesTop_restart (hfull : m = n) :
    ApproximatesTop G (n * (l.epsZero * G.norm) + 2 * (n * (l.epsZero * G.norm))) value
      (l.restart G G.norm hm hmn v K).vec := by
  have hquadratic := abs_quadratic_restart_sub_le hl hG h
  have herror : 0 ≤ n * (l.epsZero * G.norm) :=
    mul_nonneg n.cast_nonneg (mul_nonneg hl G.zero_le_norm)
  have hcast : (m : ℝ) = n := congrArg Nat.cast hfull
  rw [hcast] at hquadratic
  exact approximatesTop_of_quadratic hG (normalized_restart hl G.zero_le_norm h) hquadratic
    (by linarith) (topEigenvalue_le_restart hl hG h hfull)

end Restart

/-! ## The only restart -/

section Single

variable (l : Lanczos ℝ) (G : Mat ℝ n n) (normG tol : ℝ) (hm : 0 < m) (hmn : m ≤ n)
  (v : Vector ℝ n) (K : Krylov ℝ n m)

/-- The extraction by one restart. -/
noncomputable def single : Extraction ℝ n (Krylov ℝ n m) :=
  let r := l.restart G normG hm hmn v K
  match r.ritz with
  | none => ⟨.error (.error .eigenConvergence), r.vec, r.work, r.events⟩
  | some (value, residual) =>
    ⟨.ok value, r.vec, r.work, r.events.push (.restart 0 m (.ok value) residual)⟩

/-- A basis of the whole space leaves no residual, and its Ritz pair is accepted. -/
theorem restarts_eq_single (hfull : m = n) (htol : 0 ≤ tol * normG) (left : ℕ) :
    l.restarts G normG tol hm hmn (left + 1) 0 v K #[] = l.single G normG hm hmn v K := by
  unfold restarts single
  dsimp only
  split
  · rename_i hritz
    rw [hritz, Array.empty_append]
  · rename_i value residual hritz
    obtain ⟨-, i, -, -, hresidual, -⟩ := exists_of_restart_eq_some hritz
    have haccept : residual ≤ tol * normG := by
      rw [hresidual, Krylov.residual, if_pos hfull]
      exact htol
    rw [if_pos haccept, hritz, Array.empty_append]

/-- It fails only if the decomposition of the tridiagonal matrix does. -/
theorem single_outcome_eq_error {stop : Stop}
    (h : (l.single G normG hm hmn v K).outcome = .error stop) :
    stop = .error .eigenConvergence ∧ (l.ritzPairs G normG hm hmn v K).converged = false := by
  unfold single at h
  dsimp only at h
  split at h
  · rename_i hritz
    cases h
    exact ⟨rfl, not_converged_of_restart_eq_none hritz⟩
  · cases h

end Single

theorem basisDim_eq {krylovDim : ℕ} (h : n ≤ krylovDim) : basisDim krylovDim n = n :=
  Nat.min_eq_right h

variable {l : Lanczos ℝ} {G : Mat ℝ n n} {tol : ℝ} {vec : Vector ℝ n}
  {K : Krylov ℝ n (basisDim l.krylovDim n)}

theorem topEig_eq_single (hn : 0 < n) (hdim : n ≤ l.krylovDim) (htol : 0 ≤ tol)
    (hlarge : l.epsZero < G.norm) :
    l.topEig G tol vec K
      = l.single G G.norm (l.basisDim_pos hn) (basisDim_le _ _) vec K := by
  unfold topEig
  dsimp only
  rw [if_neg (not_le.2 hlarge), topEigNonzero, dif_pos hn]
  exact l.restarts_eq_single G _ tol _ _ vec K (basisDim_eq hdim)
    (mul_nonneg htol G.zero_le_norm) l.maxIter

section Contract

variable {value : ℝ} (hn : 0 < n) (hG : G.toMatrix.IsSymm)
  (h : (l.topEig G tol vec K).outcome = .ok value)

include hn hG h

theorem approximatesTop_topEig_of_norm_le (hl : 0 ≤ l.epsZero) (hsmall : G.norm ≤ l.epsZero) :
    ApproximatesTop G (2 * l.epsZero) value (l.topEig G tol vec K).vec := by
  rw [topEig_of_norm_le hn hsmall] at h ⊢
  cases h
  have hv : Normalized (normalize l.epsZero vec hn) := normalized_normalize hl vec hn
  have hquadratic : |G.quadratic (normalize l.epsZero vec hn) - 0| ≤ l.epsZero := by
    rw [sub_zero]
    exact (abs_quadratic_le_norm G hv).trans hsmall
  rw [two_mul]
  refine approximatesTop_of_quadratic hG hv hquadratic hl ?_
  rw [zero_add]
  exact (topEigenvalue_le_norm hn hG).trans hsmall

theorem approximatesTop_topEig_of_lt_norm (hl : 0 ≤ l.epsZero) (hdim : n ≤ l.krylovDim)
    (hlarge : l.epsZero < G.norm) :
    ApproximatesTop G (4 * n * l.epsZero * G.norm) value (l.topEig G tol vec K).vec := by
  obtain ⟨R, -, v, K', residual, hends⟩ := exists_endsAt_topEig hn hlarge h
  rw [hends.vec]
  have herror : 0 ≤ n * (l.epsZero * G.norm) :=
    mul_nonneg n.cast_nonneg (mul_nonneg hl G.zero_le_norm)
  exact (approximatesTop_restart hl hG hends.ritz (basisDim_eq hdim)).mono (by linarith)

end Contract

end Lanczos

/-! ## Both extractors -/

namespace Extractor

/-- The bases of the extractor are not smaller than the matrix. -/
def Full (n : ℕ) : Extractor ℝ → Prop
  | dense _ => True
  | lanczos l => n ≤ l.krylovDim

/-- The error of an extraction from a matrix. -/
noncomputable def accuracy (G : Mat ℝ n n) : Extractor ℝ → ℝ
  | dense d => 4 * n * d.epsZero * G.norm
  | lanczos l => if G.norm ≤ l.epsZero then 2 * l.epsZero else 4 * n * l.epsZero * G.norm

variable {G : Mat ℝ n n} {tol value : ℝ} {vec : Vector ℝ n} {work : Array ℝ}

theorem exists_of_dense_ok {d : Dense ℝ}
    (h : ((dense d).topEig G tol vec work).outcome = .ok value) :
    ∃ w, (d.topEig G vec w).outcome = .ok value ∧
      ((dense d).topEig G tol vec work).vec = (d.topEig G vec w).vec := by
  unfold topEig at h ⊢
  dsimp only at h ⊢
  split at h
  · rename_i hfit
    rw [dif_pos hfit]
    exact ⟨_, h, rfl⟩
  · cases h

theorem exists_of_lanczos_ok {l : Lanczos ℝ}
    (h : ((lanczos l).topEig G tol vec work).outcome = .ok value) :
    ∃ K, (l.topEig G tol vec K).outcome = .ok value ∧
      ((lanczos l).topEig G tol vec work).vec = (l.topEig G tol vec K).vec := by
  unfold topEig at h ⊢
  dsimp only at h ⊢
  split at h
  · rename_i hfit
    rw [dif_pos hfit]
    exact ⟨_, h, rfl⟩
  · cases h

theorem approximatesTop_topEig {e : Extractor ℝ} (hfull : e.Full n) (he : 0 ≤ e.epsZero)
    (hn : 0 < n) (hG : G.toMatrix.IsSymm) (h : (e.topEig G tol vec work).outcome = .ok value) :
    ApproximatesTop G (e.accuracy G) value (e.topEig G tol vec work).vec := by
  cases e with
  | dense d =>
    obtain ⟨w, hok, hvec⟩ := exists_of_dense_ok h
    rw [hvec]
    have hd : 0 ≤ d.epsZero := he
    have herror : 0 ≤ n * (d.epsZero * G.norm) :=
      mul_nonneg n.cast_nonneg (mul_nonneg hd G.zero_le_norm)
    refine (Dense.approximatesTop_topEig hd hn hG hok).mono ?_
    unfold accuracy
    linarith
  | lanczos l =>
    obtain ⟨K, hok, hvec⟩ := exists_of_lanczos_ok h
    rw [hvec]
    unfold accuracy
    dsimp only
    split
    · rename_i hsmall
      exact Lanczos.approximatesTop_topEig_of_norm_le hn hG hok he hsmall
    · rename_i hlarge
      exact Lanczos.approximatesTop_topEig_of_lt_norm hn hG hok he hfull (not_le.1 hlarge)

/-- A dense extraction is as accurate as a Lanczos extraction from the same matrix. -/
theorem approximatesTop_dense {d : Dense ℝ} {l : Lanczos ℝ} (heps : d.epsZero = l.epsZero)
    (hd : 0 ≤ d.epsZero) (hn : 0 < n) (hG : G.toMatrix.IsSymm)
    (h : ((dense d).topEig G tol vec work).outcome = .ok value) :
    ApproximatesTop G ((lanczos l).accuracy G) value ((dense d).topEig G tol vec work).vec := by
  have hdense := approximatesTop_topEig (e := dense d) trivial hd hn hG h
  unfold accuracy at hdense ⊢
  dsimp only at hdense ⊢
  rw [← heps]
  split
  · rename_i hsmall
    obtain ⟨w, hok, hvec⟩ := exists_of_dense_ok h
    rw [hvec]
    exact Dense.approximatesTop_topEig_of_norm_le hn hG hok hsmall
  · exact hdense

/-- A Lanczos extraction with bases of the whole space fails for a short work slice, and if the
decomposition of the tridiagonal matrix does not converge, and for no other reason. -/
theorem lanczos_error_cases {l : Lanczos ℝ} (hn : 0 < n) (hdim : n ≤ l.krylovDim) (htol : 0 ≤ tol)
    {stop : Stop} (h : ((lanczos l).topEig G tol vec work).outcome = .error stop) :
    stop = .error .workShortage ∧ work.size < Lanczos.workLength n l.krylovDim ∨
      stop = .error .eigenConvergence ∧ l.epsZero < G.norm ∧
        ∀ K, (l.ritzPairs G G.norm (l.basisDim_pos hn) (Lanczos.basisDim_le _ _) vec K).converged
          = false := by
  unfold topEig at h
  dsimp only at h
  split at h
  · rename_i hfit
    refine Or.inr ?_
    rcases le_or_gt G.norm l.epsZero with hsmall | hlarge
    · rw [Lanczos.topEig_of_norm_le hn hsmall] at h
      cases h
    · rw [Lanczos.topEig_eq_single hn hdim htol hlarge] at h
      obtain ⟨hstop, hconv⟩ := l.single_outcome_eq_error G G.norm _ _ vec _ h
      refine ⟨hstop, hlarge, fun K => ?_⟩
      unfold Lanczos.ritzPairs Lanczos.basisFrom at hconv ⊢
      rw [← hconv, (Krylov.agreeUpTo_build G _ _ _ _ K _).tridiagonal_eq]
  · rename_i hshort
    cases h
    exact Or.inl ⟨rfl, not_le.1 hshort⟩

/-- **The contract of the extractors.** An extraction from a symmetric matrix that succeeds leaves a
unit vector; its value and the quadratic form at the vector differ from the largest eigenvalue by no
more than its accuracy, whatever the starting vector is. So the extractors agree up to twice that.
Lanczos extraction with bases of the whole space consists of one restart and fails only if the
decomposition in it does. -/
theorem topEig_contract (hn : 0 < n) (hG : G.toMatrix.IsSymm) :
    (∀ (e : Extractor ℝ) tol vec work value, e.Full n → 0 ≤ e.epsZero →
      (e.topEig G tol vec work).outcome = .ok value →
        ApproximatesTop G (e.accuracy G) value (e.topEig G tol vec work).vec) ∧
    (∀ (d : Dense ℝ) (l : Lanczos ℝ) tol vec work tol' vec' work' value value',
      d.epsZero = l.epsZero → 0 ≤ l.epsZero → n ≤ l.krylovDim →
      ((dense d).topEig G tol vec work).outcome = .ok value →
      ((lanczos l).topEig G tol' vec' work').outcome = .ok value' →
        |value - value'| ≤ 2 * (lanczos l).accuracy G) ∧
    ∀ (l : Lanczos ℝ) tol vec work, n ≤ l.krylovDim → 0 ≤ tol →
      (l.epsZero < G.norm → ∀ hfit : Lanczos.workLength n l.krylovDim ≤ work.size,
        (lanczos l).topEig G tol vec work =
          (l.single G G.norm (l.basisDim_pos hn) (Lanczos.basisDim_le _ _) vec
            (Krylov.ofSlice n _ work hfit)).mapWork (joinLanczos work)) ∧
      ∀ stop, ((lanczos l).topEig G tol vec work).outcome = .error stop →
        stop = .error .workShortage ∧ work.size < Lanczos.workLength n l.krylovDim ∨
          stop = .error .eigenConvergence ∧ l.epsZero < G.norm ∧
            ∀ K, (l.ritzPairs G G.norm (l.basisDim_pos hn) (Lanczos.basisDim_le _ _) vec
              K).converged = false := by
  refine ⟨?_, ?_, ?_⟩
  · intro e tol vec work value hfull he h
    exact approximatesTop_topEig hfull he hn hG h
  · intro d l tol vec work tol' vec' work' value value' heps hl hdim h h'
    have hdense := approximatesTop_dense heps (heps ▸ hl) hn hG h
    exact hdense.abs_sub_le_two_mul (approximatesTop_topEig hdim hl hn hG h')
  · intro l tol vec work hdim htol
    refine ⟨fun hlarge hfit => ?_, fun stop h => lanczos_error_cases hn hdim htol h⟩
    unfold topEig
    dsimp only
    rw [dif_pos hfit, Lanczos.topEig_eq_single hn hdim htol hlarge]

/-! ## A start in an invariant subspace -/

/-- The diagonal matrix of the eigenvalues one and two. -/
noncomputable def twoLevels : Mat ℝ 2 2 := Objective.diagonalMatrix fun i => if i = 0 then 1 else 2

/-- A Lanczos extractor with bases of dimension two. -/
noncomputable def planeLanczos : Lanczos ℝ := ⟨2, 1 / 100, 1, Nat.two_pos⟩

/-- A starting vector without a direction. -/
def zeroVector : Vector ℝ 2 := Vector.ofFn fun _ => 0

theorem isDiag_twoLevels : twoLevels.toMatrix.IsDiag := Objective.isDiag_diagonalMatrix _

theorem norm_sq_twoLevels : twoLevels.norm ^ 2 = 5 := by
  rw [Mat.norm_sq_eq_frobenius]
  norm_num [Mat.frobenius, Fin.sum_univ_two, twoLevels, Objective.diagonalMatrix]

theorem epsZero_planeLanczos_nonneg : 0 ≤ planeLanczos.epsZero := by
  unfold planeLanczos
  norm_num

/-- The zero vector is replaced by the first coordinate direction. -/
theorem get_normalize_zeroVector :
    (normalize planeLanczos.epsZero zeroVector Nat.two_pos).get = Pi.single 0 1 := by
  have hzero : norm zeroVector = 0 := by
    rw [norm_eq]
    simp [zeroVector]
  unfold normalize
  dsimp only
  rw [hzero, if_neg (not_lt.2 epsZero_planeLanczos_nonneg), get_coordinateOver]
  rfl

/-- It is an eigenvector of the smaller eigenvalue, so the first coupling is dropped, and there is
no other. -/
theorem isDiag_tridiagonal_twoLevels {m : ℕ} (hm : 0 < m) (hmn : m ≤ 2) (K : Krylov ℝ 2 m) :
    (planeLanczos.basisFrom twoLevels twoLevels.norm hm hmn zeroVector
      K).tridiagonal.toMatrix.IsDiag := by
  have hl := epsZero_planeLanczos_nonneg
  have htiny : 0 ≤ planeLanczos.epsZero * twoLevels.norm := mul_nonneg hl twoLevels.zero_le_norm
  refine Krylov.isDiag_tridiagonal fun i hi => ?_
  have hzero : i.val = 0 := by omega
  obtain rfl : i = ⟨0, hm⟩ := Fin.ext hzero
  have hrecurs := Krylov.recurs_build (G := twoLevels) htiny hm hmn
    (normalized_normalize hl zeroVector Nat.two_pos) K ⟨0, hm⟩
  refine hrecurs.coupling_eq_zero htiny
    (Lanczos.orthonormalColumns_basisFrom hl twoLevels.zero_le_norm) (μ := 1) ?_
  rw [Lanczos.basisFrom, Krylov.col_zero_build, get_normalize_zeroVector]
  funext k
  fin_cases k <;> simp [twoLevels, Objective.diagonalMatrix]

/-- Both extractors succeed, and the Lanczos extractor finds the larger eigenvalue, though it starts
from the eigenvector of the smaller one. -/
theorem twoLevels_topEig_contract :
    ∃ value value' : ℝ,
      ((dense ⟨1 / 100, 1⟩).topEig twoLevels 0 zeroVector
        (Array.replicate (Dense.workLength 2) 0)).outcome = .ok value ∧
      ((lanczos planeLanczos).topEig twoLevels 0 zeroVector
        (Array.replicate (Lanczos.workLength 2 2) 0)).outcome = .ok value' ∧
      |value - value'| ≤ 2 * (lanczos planeLanczos).accuracy twoLevels ∧
      |value' - twoLevels.topEigenvalue| ≤ (lanczos planeLanczos).accuracy twoLevels ∧
      1 < value' := by
  have hl := epsZero_planeLanczos_nonneg
  have hsymm : twoLevels.toMatrix.IsSymm := isDiag_twoLevels.isSymm
  obtain ⟨hone, hagree, hrestart⟩ := topEig_contract Nat.two_pos hsymm
  have hfit : Dense.workLength 2 ≤ (Array.replicate (Dense.workLength 2) (0 : ℝ)).size :=
    Array.size_replicate.ge
  have hfit' : Lanczos.workLength 2 2 ≤ (Array.replicate (Lanczos.workLength 2 2) (0 : ℝ)).size :=
    Array.size_replicate.ge
  obtain ⟨value, hvalue⟩ := exists_topEig_eq_ok_of_isDiag isDiag_twoLevels Nat.two_pos
    (d := ⟨1 / 100, 1⟩) Nat.one_pos 0 zeroVector hfit
  have hok : ∃ value', ((lanczos planeLanczos).topEig twoLevels 0 zeroVector
      (Array.replicate (Lanczos.workLength 2 2) 0)).outcome = .ok value' := by
    cases hout : ((lanczos planeLanczos).topEig twoLevels 0 zeroVector
      (Array.replicate (Lanczos.workLength 2 2) 0)).outcome with
    | ok value' => exact ⟨value', rfl⟩
    | error stop =>
      rcases (hrestart planeLanczos 0 zeroVector _ le_rfl le_rfl).2 stop hout with
        ⟨-, hshort⟩ | ⟨-, -, hconv⟩
      · exact absurd hshort hfit'.not_gt
      · have hdiag := isDiag_tridiagonal_twoLevels (planeLanczos.basisDim_pos Nat.two_pos)
          (Lanczos.basisDim_le _ _) (Krylov.ofSlice 2 _ _ hfit')
        cases (converged_eigen_of_isDiag hdiag planeLanczos.epsZero Nat.one_pos).symm.trans
          (hconv _)
  obtain ⟨value', hvalue'⟩ := hok
  have htop := hone (lanczos planeLanczos) 0 zeroVector _ value' le_rfl hl hvalue'
  have haccuracy : (lanczos planeLanczos).accuracy twoLevels ≤ 1 / 4 := by
    have hnorm : twoLevels.norm ≤ 3 :=
      le_of_sq_le_sq (norm_sq_twoLevels.trans_le (by norm_num)) (by norm_num)
    unfold accuracy planeLanczos
    dsimp only
    split
    · norm_num
    · linarith
  have htwo : 2 ≤ twoLevels.topEigenvalue := by
    have hunit := quadratic_le_topEigenvalue hsymm (normalized_coordinateOver zeroVector 1)
    rw [Mat.quadratic, get_coordinateOver, mulVec_single_one, single_one_dotProduct] at hunit
    simpa [twoLevels, Objective.diagonalMatrix] using hunit
  refine ⟨value, value', hvalue, hvalue', ?_, htop.abs_sub_le, ?_⟩
  · exact hagree ⟨1 / 100, 1⟩ planeLanczos 0 zeroVector _ 0 zeroVector _ value value' rfl hl le_rfl
      hvalue hvalue'
  · have hlow := (abs_le.1 htop.abs_sub_le).1
    linarith

end Extractor

end Spectrahedron
