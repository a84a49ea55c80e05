import Spectrahedron.Proofs.Rotations
import Spectrahedron.Proofs.TopPair

/-!
# Restarts never lose ground

The first entry of the tridiagonal matrix is the quadratic form at the vector that a restart begins
with, so the Ritz value is not far below it. The Ritz vector is a unit vector at which the form is
close to the Ritz value, and the next restart begins with it as it is.

**Theorem (`Lanczos.restarts_keep_ground`).** From restart to restart the Ritz value drops by no
more than twice the error `m ε ‖G‖` of one restart, and the value of an extraction lies between the
quadratic form at its starting vector and the largest eigenvalue, up to these errors.
-/

namespace Spectrahedron

open Scalar Matrix

variable {n m : ℕ}

/-- A unit vector is left as it is. -/
theorem normalize_of_normalized {epsZero : ℝ} (heps : epsZero < 1) {v : Vector ℝ n}
    (hv : Normalized v) (hn : 0 < n) : (normalize epsZero v hn).get = v.get := by
  unfold normalize
  dsimp only
  rw [hv.norm_eq_one, if_pos heps, recip_eq, inv_one, get_scale_eq_smul, one_smul]

namespace Lanczos

/-! ## One restart -/

section Restart

variable {l : Lanczos ℝ} {G : Mat ℝ n n} {hm : 0 < m} {hmn : m ≤ n} {v : Vector ℝ n}
  {K : Krylov ℝ n m} {value residual : ℝ} (hl : 0 ≤ l.epsZero) (hG : G.toMatrix.IsSymm)

include hl

/-- The vector that a restart begins with gives the first entry of the tridiagonal matrix. -/
theorem get_tridiagonal_zero :
    (l.basisFrom G G.norm hm hmn v K).tridiagonal.get ⟨0, hm⟩ ⟨0, hm⟩
      = G.quadratic (normalize l.epsZero v (dim_pos_of_le hm hmn)) := by
  rw [Krylov.get_tridiagonal_self, (recurs_basisFrom hl _).diag, basisFrom, Krylov.col_zero_build]

include hG

variable (h : (l.restart G G.norm hm hmn v K).ritz = some (value, residual))

include h

/-- The Ritz value is not far below the quadratic form at the beginning. -/
theorem quadratic_normalize_le_restart :
    G.quadratic (normalize l.epsZero v (dim_pos_of_le hm hmn)) - m * (l.epsZero * G.norm)
      ≤ value := by
  have hfirst := quadratic_le_topEigenvalue
    (Krylov.isSymm_tridiagonal (l.basisFrom G G.norm hm hmn v K))
    (normalized_coordinateOver (Vector.ofFn fun _ => 0) ⟨0, hm⟩)
  rw [Mat.quadratic, get_coordinateOver, mulVec_single_one, single_one_dotProduct] at hfirst
  change (l.basisFrom G G.norm hm hmn v K).tridiagonal.get ⟨0, hm⟩ ⟨0, hm⟩ ≤ _ at hfirst
  rw [get_tridiagonal_zero hl] at hfirst
  have htop := topEigenvalue_tridiagonal_le hl hG h
  linarith

/-- The Ritz value is not far above the largest eigenvalue. -/
theorem restart_le_topEigenvalue : value ≤ G.topEigenvalue + m * (l.epsZero * G.norm) := by
  have hclose := (abs_le.1 (abs_quadratic_restart_sub_le hl hG h)).1
  have htop := quadratic_le_topEigenvalue hG (normalized_restart hl G.zero_le_norm h)
  linarith

variable (hone : l.epsZero < 1)

include hone

/-- The next restart begins where the quadratic form is close to the Ritz value. -/
theorem restart_le_quadratic_normalize :
    value - m * (l.epsZero * G.norm) ≤ G.quadratic
      (normalize l.epsZero (l.restart G G.norm hm hmn v K).vec (dim_pos_of_le hm hmn)) := by
  have hunit := normalized_restart hl G.zero_le_norm h
  have hclose := (abs_le.1 (abs_quadratic_restart_sub_le hl hG h)).1
  rw [Mat.quadratic, normalize_of_normalized hone hunit]
  rw [Mat.quadratic] at hclose
  linarith

end Restart

/-! ## Any number of restarts -/

section Run

variable {l : Lanczos ℝ} {G : Mat ℝ n n} {tol : ℝ} {hm : 0 < m} {hmn : m ≤ n}
  {v₀ v : Vector ℝ n} {K₀ K : Krylov ℝ n m} {k : ℕ} (hl : 0 ≤ l.epsZero) (hone : l.epsZero < 1)
  (hG : G.toMatrix.IsSymm)

include hl hone hG

/-- Of the quadratic form at the beginning, each restart loses at most twice the error of one. -/
theorem Restarted.le_quadratic (h : l.Restarted G G.norm tol hm hmn v₀ K₀ k v K) :
    G.quadratic (normalize l.epsZero v₀ (dim_pos_of_le hm hmn))
        - 2 * k * (m * (l.epsZero * G.norm))
      ≤ G.quadratic (normalize l.epsZero v (dim_pos_of_le hm hmn)) := by
  induction h with
  | start => simp
  | step _ hritz _ ih =>
    have hlow := quadratic_normalize_le_restart hl hG hritz
    have hnext := restart_le_quadratic_normalize hl hG hritz hone
    push_cast
    linarith

/-- The next restart loses at most twice the error of one. -/
theorem ritz_restart_le {value residual value' residual' : ℝ}
    (h : (l.restart G G.norm hm hmn v K).ritz = some (value, residual))
    (h' : (l.restart G G.norm hm hmn (l.restart G G.norm hm hmn v K).vec
      (l.restart G G.norm hm hmn v K).work).ritz = some (value', residual')) :
    value - 2 * (m * (l.epsZero * G.norm)) ≤ value' := by
  have hnext := restart_le_quadratic_normalize hl hG h hone
  have hlow := quadratic_normalize_le_restart hl hG h'
  linarith

end Run

/-! ## Extractions -/

/-- Restart number `R` of an extraction finds a Ritz value, with its residual estimate. -/
def Finds (l : Lanczos ℝ) (hn : 0 < n) (G : Mat ℝ n n) (tol : ℝ) (vec : Vector ℝ n)
    (K : Krylov ℝ n (basisDim l.krylovDim n)) (R : ℕ) (value residual : ℝ) : Prop :=
  ∃ v K', l.Restarted G G.norm tol (l.basisDim_pos hn) (basisDim_le _ _) vec K R v K' ∧
    (l.restart G G.norm (l.basisDim_pos hn) (basisDim_le _ _) v K').ritz = some (value, residual)

/-- **Restarts never lose ground.** An extraction that succeeds after `R` restarts has a value
between the quadratic form at its starting vector, made a unit vector, and the largest eigenvalue,
up to `(2 R + 1) m ε ‖G‖` below and `m ε ‖G‖` above. From one restart to the next the Ritz value
drops by at most `2 m ε ‖G‖`. -/
theorem restarts_keep_ground (l : Lanczos ℝ) (hl : 0 ≤ l.epsZero) (hone : l.epsZero < 1)
    (hn : 0 < n) {G : Mat ℝ n n} (hG : G.toMatrix.IsSymm) (hlarge : l.epsZero < G.norm) (tol : ℝ)
    (vec : Vector ℝ n) (K : Krylov ℝ n (basisDim l.krylovDim n)) :
    (∀ value, (l.topEig G tol vec K).outcome = .ok value →
      ∃ R ≤ l.maxIter, ∃ residual ≤ tol * G.norm, l.Finds hn G tol vec K R value residual ∧
        (l.topEig G tol vec K).events.back?
          = some (.restart R (basisDim l.krylovDim n) (.ok value) residual) ∧
        G.quadratic (normalize l.epsZero vec hn)
          - (2 * R + 1) * basisDim l.krylovDim n * l.epsZero * G.norm ≤ value ∧
        value ≤ G.topEigenvalue + basisDim l.krylovDim n * l.epsZero * G.norm) ∧
    ∀ R value residual value' residual', l.Finds hn G tol vec K R value residual →
      l.Finds hn G tol vec K (R + 1) value' residual' →
        value - 2 * basisDim l.krylovDim n * l.epsZero * G.norm ≤ value' := by
  refine ⟨fun value h => ?_, ?_⟩
  · obtain ⟨R, hR, v, K', residual, hends⟩ := exists_endsAt_topEig hn hlarge h
    have hstart := hends.restarted.le_quadratic hl hone hG
    have hlow := quadratic_normalize_le_restart hl hG hends.ritz
    have hhigh := restart_le_topEigenvalue hl hG hends.ritz
    refine ⟨R, hR, residual, hends.residual_le, ⟨v, K', hends.restarted, hends.ritz⟩, hends.last,
      ?_, ?_⟩
    · linarith
    · linarith
  · rintro R value residual value' residual' ⟨v, K', hv, hritz⟩ ⟨v', K'', hv', hritz'⟩
    cases hv' with
    | step hbefore _ _ =>
      obtain ⟨rfl, rfl⟩ := hv.unique hbefore
      have hnext := ritz_restart_le hl hone hG hritz hritz'
      linarith

/-! ## Restarts of a full basis -/

/-- With more sweeps than there can be rotations, every restart finds a Ritz pair. -/
theorem exists_ritz_of_lt {l : Lanczos ℝ} (hl : 0 < l.epsZero)
    (hmax : 1 / (2 * l.epsZero ^ 2) < l.maxIter) (G : Mat ℝ n n) (normG : ℝ) (hm : 0 < m)
    (hmn : m ≤ n) (v : Vector ℝ n) (K : Krylov ℝ n m) :
    ∃ value residual, (l.restart G normG hm hmn v K).ritz = some (value, residual) := by
  cases hritz : (l.restart G normG hm hmn v K).ritz with
  | none =>
    have hconv : (l.ritzPairs G normG hm hmn v K).converged = true :=
      Diagonalization.converged_of_lt (Krylov.isSymm_tridiagonal _) hl hmax
    cases hconv.symm.trans (not_converged_of_restart_eq_none hritz)
  | some ritz => exact ⟨ritz.1, ritz.2, rfl⟩

/-- A basis of the whole space leaves no residual. -/
theorem exists_ritz_eq_zero {l : Lanczos ℝ} (hl : 0 < l.epsZero)
    (hmax : 1 / (2 * l.epsZero ^ 2) < l.maxIter) (G : Mat ℝ n n) (normG : ℝ) (hn : 0 < n)
    (v : Vector ℝ n) (K : Krylov ℝ n n) :
    ∃ value, (l.restart G normG hn le_rfl v K).ritz = some (value, 0) := by
  obtain ⟨value, residual, hritz⟩ := exists_ritz_of_lt hl hmax G normG hn le_rfl v K
  obtain ⟨-, i, -, -, hresidual, -⟩ := exists_of_restart_eq_some hritz
  rw [Krylov.residual, if_pos rfl] at hresidual
  exact ⟨value, hresidual ▸ hritz⟩

/-- A Lanczos extractor with bases of dimension two and as many sweeps as they can need. -/
noncomputable def patientLanczos : Lanczos ℝ := { Extractor.planeLanczos with maxIter := 5001 }

theorem patientLanczos_epsZero : patientLanczos.epsZero = 1 / 100 := rfl

theorem patientLanczos_epsZero_pos : 0 < patientLanczos.epsZero := by
  norm_num [patientLanczos_epsZero]

theorem exists_ritz_patientLanczos (G : Mat ℝ 2 2) (v : Vector ℝ 2) (K : Krylov ℝ 2 2) :
    ∃ value, (patientLanczos.restart G G.norm Nat.two_pos le_rfl v K).ritz = some (value, 0) := by
  have hmax : 1 / (2 * patientLanczos.epsZero ^ 2) < patientLanczos.maxIter := by
    have hsweeps : patientLanczos.maxIter = 5001 := rfl
    norm_num [patientLanczos_epsZero, hsweeps]
  exact exists_ritz_eq_zero patientLanczos_epsZero_pos hmax G G.norm Nat.two_pos v K

/-- The regions of a work slice of zeros. -/
noncomputable def zeroKrylov : Krylov ℝ 2 (basisDim patientLanczos.krylovDim 2) :=
  Krylov.ofSlice 2 2 (Array.replicate (Krylov.size 2 2) 0) Array.size_replicate.ge

theorem exists_topEig_patientLanczos_eq_ok {G : Mat ℝ 2 2}
    (hlarge : patientLanczos.epsZero < G.norm) :
    ∃ value, (patientLanczos.topEig G 0 Extractor.zeroVector zeroKrylov).outcome = .ok value := by
  obtain ⟨value, hvalue⟩ := exists_ritz_patientLanczos G Extractor.zeroVector zeroKrylov
  exact ⟨value, topEig_eq_ok Nat.two_pos hlarge (Nat.zero_le _) .start hvalue (zero_mul _).ge⟩

theorem one_le_norm_exchange : 1 ≤ exchange.norm := by
  have hentry := exchange.abs_get_le_norm 0 1
  simpa [exchange] using hentry

theorem epsZero_lt_norm_exchange : patientLanczos.epsZero < exchange.norm :=
  lt_of_lt_of_le (by norm_num [patientLanczos_epsZero]) one_le_norm_exchange

/-- From the zero vector, the extraction from the exchange of two coordinates succeeds, with a value
not far above the largest eigenvalue. With a negative tolerance it goes on to a second restart, whose
Ritz value is not far below that of the first. -/
theorem exchange_restarts_keep_ground :
    (0 ≤ patientLanczos.epsZero ∧ patientLanczos.epsZero < 1 ∧ exchange.toMatrix.IsSymm ∧
      patientLanczos.epsZero < exchange.norm) ∧
    (∃ value, (patientLanczos.topEig exchange 0 Extractor.zeroVector zeroKrylov).outcome
        = .ok value ∧
      value ≤ exchange.topEigenvalue + 2 * (1 / 100) * exchange.norm) ∧
    ∃ value value',
      patientLanczos.Finds Nat.two_pos exchange (-1) Extractor.zeroVector zeroKrylov 0 value 0 ∧
      patientLanczos.Finds Nat.two_pos exchange (-1) Extractor.zeroVector zeroKrylov 1 value' 0 ∧
      value - 2 * 2 * (1 / 100) * exchange.norm ≤ value' := by
  have hl : 0 ≤ patientLanczos.epsZero := patientLanczos_epsZero_pos.le
  have hone : patientLanczos.epsZero < 1 := by norm_num [patientLanczos_epsZero]
  refine ⟨⟨hl, hone, isSymm_exchange, epsZero_lt_norm_exchange⟩, ?_, ?_⟩
  · obtain ⟨value, hok⟩ := exists_topEig_patientLanczos_eq_ok epsZero_lt_norm_exchange
    obtain ⟨R, -, residual, -, -, -, -, hhigh⟩ := (restarts_keep_ground patientLanczos hl hone
      Nat.two_pos isSymm_exchange epsZero_lt_norm_exchange 0 Extractor.zeroVector zeroKrylov).1
      value hok
    exact ⟨value, hok, hhigh⟩
  · have hreject : ¬(0 : ℝ) ≤ -1 * exchange.norm := by
      have hnorm := one_le_norm_exchange
      linarith
    obtain ⟨value, hvalue⟩ := exists_ritz_patientLanczos exchange Extractor.zeroVector zeroKrylov
    obtain ⟨value', hvalue'⟩ := exists_ritz_patientLanczos exchange _ _
    have hfirst : patientLanczos.Finds Nat.two_pos exchange (-1) Extractor.zeroVector zeroKrylov 0
        value 0 := ⟨_, _, .start, hvalue⟩
    have hsecond : patientLanczos.Finds Nat.two_pos exchange (-1) Extractor.zeroVector zeroKrylov 1
        value' 0 := ⟨_, _, .step .start hvalue hreject, hvalue'⟩
    exact ⟨value, value', hfirst, hsecond, (restarts_keep_ground patientLanczos hl hone
      Nat.two_pos isSymm_exchange epsZero_lt_norm_exchange (-1) Extractor.zeroVector zeroKrylov).2
      0 value 0 value' 0 hfirst hsecond⟩

end Lanczos

end Spectrahedron
