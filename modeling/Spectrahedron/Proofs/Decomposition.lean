import Spectrahedron.Proofs.Checked.Decomposition
import Spectrahedron.Proofs.Rotations

/-!
# What an eigenvalue decomposition leaves

The decomposition works on three slices: the matrix, which it makes diagonal, the eigenvalues and
the eigenvectors. Whatever the last two hold at the start, they end as the orthonormal basis `V` and
the matrix `Vᵀ S V`, written in it. Without convergence only the eigenvalues are missing.

In its own basis the matrix takes each coordinate vector to a column of `Vᵀ S V`. The part of the
column off the diagonal is the residual of the eigenpair, turned by `V`, which keeps norms.

**Theorem (`eigen_decomposes`).** This is what is in the slices, with the bounds of the entries off
the diagonal and of the residuals.
-/

namespace Spectrahedron

open Scalar Matrix

variable {n : ℕ}

/-- The residual `A v - a v` of an eigenpair. -/
noncomputable def Mat.residual (A : Mat ℝ n n) (a : ℝ) (v : Vector ℝ n) : Vector ℝ n :=
  A.transform 1 v (-a) v

theorem Mat.get_residual (A : Mat ℝ n n) (a : ℝ) (v : Vector ℝ n) :
    (A.residual a v).get = A.toMatrix *ᵥ v.get - a • v.get := by
  funext r
  rw [residual, get_transform, sum_eq, one_mul, neg_mul, ← sub_eq_add_neg]
  rfl

/-- A column with entries of at most `δ` off the diagonal, and zero on it. -/
theorem dotProduct_self_sub_single_le {x : Fin n → ℝ} {i : Fin n} {δ : ℝ}
    (h : ∀ j, j ≠ i → |x j| ≤ δ) :
    (x - Pi.single i (x i)) ⬝ᵥ (x - Pi.single i (x i)) ≤ (n - 1) * δ ^ 2 := by
  have hrest : ∀ j ∈ Finset.univ.erase i,
      (x j - (Pi.single i (x i) : Fin n → ℝ) j) * (x j - (Pi.single i (x i) : Fin n → ℝ) j)
        ≤ δ ^ 2 := by
    intro j hj
    have hji : j ≠ i := Finset.ne_of_mem_erase hj
    rw [Pi.single_eq_of_ne hji, sub_zero, ← sq, ← sq_abs]
    exact pow_le_pow_left₀ (abs_nonneg _) (h j hji) 2
  have hcard : (Finset.univ.erase i).card = n - 1 := by
    rw [Finset.card_erase_of_mem (Finset.mem_univ i), Finset.card_univ, Fintype.card_fin]
  have hpos : 1 ≤ n := Nat.one_le_iff_ne_zero.2 i.pos.ne'
  rw [dotProduct, ← Finset.add_sum_erase _ _ (Finset.mem_univ i), Pi.sub_apply, Pi.single_eq_same,
    sub_self, zero_mul, zero_add]
  refine (Finset.sum_le_card_nsmul _ _ _ hrest).trans_eq ?_
  rw [hcard, nsmul_eq_mul, Nat.cast_sub hpos, Nat.cast_one]

namespace Diagonalization.Writes

variable {S : Mat ℝ n n} {s : Diagonalization ℝ n}

theorem trace_eq (h : s.Writes S) : s.mat.trace = S.trace := by
  rw [Mat.trace_eq_trace, Mat.trace_eq_trace, h.toMatrix_eq]
  exact h.orthonormal.trace_transpose_mul_mul S.toMatrix

/-- The columns of the written matrix are the images of the basis, in its own coordinates. -/
theorem mulVec_col (h : s.Writes S) (i : Fin n) :
    S.toMatrix *ᵥ (s.basis.col i).get = s.basis.toMatrix *ᵥ s.mat.toMatrix.col i := by
  have himage : s.mat.toMatrix.col i
      = s.basis.toMatrixᵀ *ᵥ (S.toMatrix *ᵥ (s.basis.col i).get) := by
    rw [h.toMatrix_eq, Mat.compress, Matrix.mul_assoc, s.basis.get_col_eq]
    rfl
  rw [himage, h.orthonormal.mulVec_transpose_mulVec]

/-- **The residual of a column** has the norm of the part off the diagonal. -/
theorem norm_residual_le (h : s.Writes S) {i : Fin n} {δ : ℝ} (hδ : 0 ≤ δ)
    (hoff : ∀ j, j ≠ i → |s.mat.get j i| ≤ δ) :
    norm (S.residual (s.mat.get i i) (s.basis.col i)) ≤ √(n - 1) * δ := by
  have hcol : (s.basis.col i).get = s.basis.toMatrix *ᵥ Pi.single i 1 := by
    rw [mulVec_single_one, s.basis.get_col_eq]
  have hresidual : (S.residual (s.mat.get i i) (s.basis.col i)).get
      = s.basis.toMatrix *ᵥ (s.mat.toMatrix.col i - Pi.single i (s.mat.toMatrix.col i i)) := by
    have hdiag : Pi.single i (s.mat.toMatrix.col i i)
        = s.mat.get i i • (Pi.single i 1 : Fin n → ℝ) := by
      rw [← Pi.single_smul, smul_eq_mul, mul_one]
      rfl
    rw [S.get_residual, h.mulVec_col, hcol, mulVec_sub, hdiag, mulVec_smul]
  rw [norm_eq_sqrt, hresidual, h.orthonormal.dotProduct_mulVec, ← Real.sqrt_sq hδ, ← Real.sqrt_mul']
  · exact Real.sqrt_le_sqrt (dotProduct_self_sub_single_le hoff)
  · exact sq_nonneg δ

end Diagonalization.Writes

/-- **The decomposition.** On slices of the right lengths with any content, the method leaves an
orthonormal basis and the matrix written in it, which has the same trace and norm. If it converges,
the eigenvalues are the entries on the diagonal, those off it are at most `ε ‖S‖`, and so the
columns of the basis are eigenvectors up to `√(n - 1) ε ‖S‖`. -/
theorem eigen_decomposes {S : Mat ℝ n n} (hS : S.toMatrix.IsSymm) {epsZero : ℝ}
    (heps : 0 ≤ epsZero) (maxSweeps : ℕ) (values : Vector ℝ n) (vectors : Mat ℝ n n) :
    ∃ (converged : Bool) (D V : Mat ℝ n n) (eigenvalues : Vector ℝ n),
      S.eigen epsZero maxSweeps = ⟨⟨D, V⟩, converged⟩ ∧
      Checked.eigen n S.toArray epsZero maxSweeps values.toArray vectors.toArray
        = .ok ⟨converged, D.toArray, eigenvalues.toArray, V.toArray⟩ ∧
      V.toMatrixᵀ * V.toMatrix = 1 ∧
      D.toMatrix = V.toMatrixᵀ * S.toMatrix * V.toMatrix ∧
      D.toMatrix.IsSymm ∧ D.trace = S.trace ∧ D.norm = S.norm ∧
      (converged = true → ∀ i, eigenvalues.get i = D.get i i ∧
        (∀ j, i ≠ j → |D.get i j| ≤ epsZero * S.norm) ∧
        norm (S.residual (eigenvalues.get i) (V.col i)) ≤ √(n - 1) * epsZero * S.norm) := by
  have hwrites := writes_eigen hS epsZero maxSweeps
  have hslices := Checked.eigen_eq S epsZero maxSweeps values vectors
  have hoff : (S.eigen epsZero maxSweeps).converged = true → ∀ i j, i ≠ j →
      |(S.eigen epsZero maxSweeps).mat.get i j| ≤ epsZero * S.norm :=
    fun hconv i j hij => abs_get_eigen_le hS heps hconv hij
  have hvalues : (S.eigen epsZero maxSweeps).values
      = (S.eigen epsZero maxSweeps).mat.diagonal := rfl
  generalize S.eigen epsZero maxSweeps = e at *
  refine ⟨e.converged, e.mat, e.basis, _, rfl, hslices, hwrites.orthonormal, hwrites.toMatrix_eq,
    hwrites.isSymm hS, hwrites.trace_eq, hwrites.norm_eq, fun hconv i => ?_⟩
  rw [if_pos hconv, hvalues, Mat.get_diagonal, mul_assoc]
  exact ⟨rfl, hoff hconv i, hwrites.norm_residual_le (mul_nonneg heps S.zero_le_norm)
    fun j hji => hoff hconv j i hji⟩

/-- With `ε = 1 / 2`, three sweeps decompose the exchange of two coordinates, in slices that hold
sevens. -/
theorem exchange_eigen_decomposes :
    (exchange.toMatrix.IsSymm ∧ (0 : ℝ) ≤ 1 / 2) ∧
      ∃ (D V : Mat ℝ 2 2) (eigenvalues : Vector ℝ 2),
        Checked.eigen 2 exchange.toArray (1 / 2) 3 #[7, 7] #[7, 7, 7, 7]
          = .ok ⟨true, D.toArray, eigenvalues.toArray, V.toArray⟩ ∧
        D.toMatrix = V.toMatrixᵀ * exchange.toMatrix * V.toMatrix ∧
        ∀ i, norm (exchange.residual (eigenvalues.get i) (V.col i)) ≤ 1 / 2 * exchange.norm := by
  have hhalf : (0 : ℝ) ≤ 1 / 2 := one_half_pos.le
  have hconv : (exchange.eigen (1 / 2) 3).converged = true :=
    Diagonalization.converged_of_lt isSymm_exchange one_half_pos (by norm_num)
  obtain ⟨converged, D, V, eigenvalues, heigen, hslices, -, hwritten, -, -, -, hresidual⟩ :=
    eigen_decomposes isSymm_exchange hhalf 3 #v[7, 7] ⟨#v[7, 7, 7, 7]⟩
  rw [heigen] at hconv
  obtain rfl : converged = true := hconv
  refine ⟨⟨isSymm_exchange, hhalf⟩, D, V, eigenvalues, hslices, hwritten, fun i => ?_⟩
  refine (hresidual rfl i).2.2.trans_eq ?_
  norm_num

end Spectrahedron
