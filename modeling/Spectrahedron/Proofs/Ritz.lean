import Spectrahedron.Proofs.Decomposition
import Spectrahedron.Proofs.Restarts

/-!
# Accepted Ritz pairs are approximate eigenpairs

For a Ritz vector `B s` the residual is the sum of three parts,

  `G B s - θ B s = B (C - T) s + B (T s - θ s) + (1 - B Bᵀ) G B s`

where `C = Bᵀ G B` is the compression to the basis. The tridiagonal matrix `T` is the compression up
to the couplings that were dropped; `θ` and `s` are an eigenpair of `T` up to what the decomposition
leaves off the diagonal; and of the images of the basis only that of the last vector leaves the span
by more than what counts as zero. That is the part that the test of a pair estimates.

**Theorem (`Lanczos.accepted_pair_residual_le`).** The residual of an accepted pair is at most
`(tol + 4 m ε) ‖G‖`, so its value is within that of an eigenvalue.
-/

namespace Spectrahedron

open Scalar Matrix

variable {n m : ℕ}

/-! ## Lengths of sums -/

theorem length_eq_norm (x : Fin n → ℝ) : length x = ‖WithLp.toLp 2 x‖ := by
  rw [EuclideanSpace.norm_eq, length, dotProduct]
  simp only [Real.norm_eq_abs, sq_abs, ← sq]

theorem length_zero : length (0 : Fin n → ℝ) = 0 := by
  rw [length, dotProduct_zero, Real.sqrt_zero]

theorem length_add_le (x y : Fin n → ℝ) : length (x + y) ≤ length x + length y := by
  simp only [length_eq_norm, WithLp.toLp_add]
  exact norm_add_le _ _

theorem length_sum_le {ι : Type*} (s : Finset ι) (f : ι → Fin n → ℝ) :
    length (∑ i ∈ s, f i) ≤ ∑ i ∈ s, length (f i) := by
  simp only [length_eq_norm, WithLp.toLp_sum]
  exact norm_sum_le _ _

theorem length_smul (a : ℝ) (x : Fin n → ℝ) : length (a • x) = |a| * length x := by
  rw [length_eq_norm, length_eq_norm, WithLp.toLp_smul, norm_smul, Real.norm_eq_abs]

theorem abs_apply_le_length (x : Fin n → ℝ) (i : Fin n) : |x i| ≤ length x := by
  rw [length_eq_norm, ← Real.norm_eq_abs]
  exact PiLp.norm_apply_le (WithLp.toLp 2 x) i

theorem Mat.OrthonormalColumns.length_mulVec {B : Mat ℝ n m} (hB : B.OrthonormalColumns)
    (x : Fin m → ℝ) : length (B.toMatrix *ᵥ x) = length x := by
  rw [length, hB.dotProduct_mulVec, length]

/-! ## Eigenvalues -/

/-- **Parseval's identity** in the eigenvectors of a symmetric matrix. -/
theorem sum_sq_dotProduct_eigenvector {A : Matrix (Fin n) (Fin n) ℝ} (hA : A.IsHermitian)
    (w : Fin n → ℝ) : ∑ i, ((hA.eigenvectorBasis i).ofLp ⬝ᵥ w) ^ 2 = w ⬝ᵥ w := by
  have hparseval := hA.eigenvectorBasis.sum_sq_norm_inner_right (WithLp.toLp 2 w)
  rw [← length_eq_norm, length_sq] at hparseval
  rw [← hparseval]
  refine Finset.sum_congr rfl fun i _ => ?_
  rw [EuclideanSpace.inner_eq_star_dotProduct, star_trivial, dotProduct_comm, Real.norm_eq_abs,
    sq_abs]

/-- A value and a vector are an eigenpair of a matrix up to an error: the residual is no larger, and
some eigenvalue is no farther. -/
structure IsEigenpairUpTo (G : Mat ℝ n n) (d value : ℝ) (v : Vector ℝ n) : Prop where
  norm_residual_le : norm (G.residual value v) ≤ d
  exists_abs_sub_le : ∃ μ ∈ spectrum ℝ G.toMatrix, |value - μ| ≤ d

section Residuals

variable (hn : 0 < n) {G : Mat ℝ n n} (hG : G.toMatrix.IsSymm) {v : Vector ℝ n}
  (hv : Normalized v)

include hn hG hv

/-- The residual at a unit vector bounds the distance to some eigenvalue. -/
theorem exists_mem_spectrum_abs_sub_le (value : ℝ) :
    ∃ μ ∈ spectrum ℝ G.toMatrix,
      |value - μ| ≤ length (G.toMatrix *ᵥ v.get - value • v.get) := by
  have hH : G.toMatrix.IsHermitian := isHermitian_iff_isSymm.2 hG
  have : Nonempty (Fin n) := ⟨⟨0, hn⟩⟩
  obtain ⟨k, hk⟩ := Finite.exists_min fun i => |value - hH.eigenvalues i|
  refine ⟨hH.eigenvalues k, ?_, ?_⟩
  · rw [hH.spectrum_real_eq_range_eigenvalues]
    exact Set.mem_range_self k
  have hcomponent : ∀ i, (hH.eigenvectorBasis i).ofLp ⬝ᵥ (G.toMatrix *ᵥ v.get - value • v.get)
      = (hH.eigenvalues i - value) * ((hH.eigenvectorBasis i).ofLp ⬝ᵥ v.get) := by
    intro i
    have heig : G.toMatrix *ᵥ (hH.eigenvectorBasis i).ofLp
        = hH.eigenvalues i • (hH.eigenvectorBasis i).ofLp := hH.mulVec_eigenvectorBasis i
    have hmove : (hH.eigenvectorBasis i).ofLp ⬝ᵥ (G.toMatrix *ᵥ v.get)
        = (G.toMatrix *ᵥ (hH.eigenvectorBasis i).ofLp) ⬝ᵥ v.get := by
      rw [Matrix.dotProduct_mulVec, ← mulVec_transpose, hG]
    rw [dotProduct_sub, hmove, heig, smul_dotProduct, dotProduct_smul, smul_eq_mul, smul_eq_mul,
      sub_mul]
  refine le_of_sq_le_sq ?_ (length_nonneg _)
  rw [length_sq]
  calc |value - hH.eigenvalues k| ^ 2
      = ∑ i, |value - hH.eigenvalues k| ^ 2
          * ((hH.eigenvectorBasis i).ofLp ⬝ᵥ v.get) ^ 2 := by
        rw [← Finset.mul_sum, sum_sq_dotProduct_eigenvector hH v.get, hv, mul_one]
    _ ≤ ∑ i, ((hH.eigenvectorBasis i).ofLp ⬝ᵥ (G.toMatrix *ᵥ v.get - value • v.get)) ^ 2 := by
        refine Finset.sum_le_sum fun i _ => ?_
        rw [hcomponent i, mul_pow, ← sq_abs (hH.eigenvalues i - value), abs_sub_comm _ value]
        exact mul_le_mul_of_nonneg_right (pow_le_pow_left₀ (abs_nonneg _) (hk i) 2) (sq_nonneg _)
    _ = _ := sum_sq_dotProduct_eigenvector hH _

theorem isEigenpairUpTo_of_length_le {value d : ℝ}
    (h : length (G.toMatrix *ᵥ v.get - value • v.get) ≤ d) : IsEigenpairUpTo G d value v := by
  obtain ⟨μ, hμ, hclose⟩ := exists_mem_spectrum_abs_sub_le hn hG hv value
  refine ⟨?_, μ, hμ, hclose.trans h⟩
  rw [norm_eq_length, Mat.get_residual]
  exact h

end Residuals

/-! ## What leaves the span -/

namespace Mat

/-- The image of a vector is a combination of the columns. -/
theorem mulVec_eq_sum_smul_col (B : Mat ℝ n m) (x : Fin m → ℝ) :
    B.toMatrix *ᵥ x = ∑ j, x j • (B.col j).get := by
  simp only [mulVec_eq_sum, op_smul_eq_smul, get_col_eq]
  rfl

/-- The projection to the orthogonal complement of orthonormal columns. -/
def complement (B : Mat ℝ n m) : Matrix (Fin n) (Fin n) ℝ := 1 - B.toMatrix * B.toMatrixᵀ

theorem complement_mulVec (B : Mat ℝ n m) (w : Fin n → ℝ) :
    B.complement *ᵥ w = w - B.toMatrix *ᵥ (B.toMatrixᵀ *ᵥ w) := by
  rw [complement, sub_mulVec, one_mulVec, mulVec_mulVec]

/-- The residual of a combination of the columns, split by any matrix in place of the compression.
-/
theorem mulVec_sub_smul_eq (B : Mat ℝ n m) (A : Mat ℝ n n) (T : Mat ℝ m m) (θ : ℝ)
    (s : Vector ℝ m) :
    A.toMatrix *ᵥ (B.toMatrix *ᵥ s.get) - θ • (B.toMatrix *ᵥ s.get)
      = B.toMatrix *ᵥ ((B.compress A - T.toMatrix) *ᵥ s.get) + B.toMatrix *ᵥ (T.residual θ s).get
        + B.complement *ᵥ (A.toMatrix *ᵥ (B.toMatrix *ᵥ s.get)) := by
  have himage : B.compress A *ᵥ s.get
      = B.toMatrixᵀ *ᵥ (A.toMatrix *ᵥ (B.toMatrix *ᵥ s.get)) := by
    rw [mulVec_mulVec, mulVec_mulVec]
    rfl
  rw [get_residual, complement_mulVec, ← himage, sub_mulVec, mulVec_sub, mulVec_sub, mulVec_smul]
  abel

namespace OrthonormalColumns

/-- Nothing is outside of the whole space. -/
theorem complement_eq_zero {B : Mat ℝ n n} (hB : B.OrthonormalColumns) : B.complement = 0 := by
  rw [complement, mul_eq_one_comm.1 hB, sub_self]

variable {B : Mat ℝ n m} (hB : B.OrthonormalColumns)

include hB

theorem complement_mulVec_col (i : Fin m) : B.complement *ᵥ (B.col i).get = 0 := by
  rw [B.get_col_eq, ← mulVec_single_one, mulVec_mulVec, complement, Matrix.sub_mul,
    Matrix.mul_assoc, hB, Matrix.one_mul, Matrix.mul_one, sub_self, zero_mulVec]

theorem length_complement_mulVec_le (w : Fin n → ℝ) : length (B.complement *ᵥ w) ≤ length w := by
  refine le_of_sq_le_sq ?_ (length_nonneg w)
  have hnonneg := dotProduct_self_nonneg (B.toMatrixᵀ *ᵥ w)
  rw [length_sq, length_sq, complement_mulVec, hB.dotProduct_sub_mulVec_transpose]
  linarith

end OrthonormalColumns

end Mat

namespace Krylov

variable {G : Mat ℝ n n} {tiny : ℝ} {K : Krylov ℝ n m}

/-- The components along the columns lie in the span. -/
theorem complement_mulVec_rest (hB : K.basis.OrthonormalColumns) (j : Fin m) :
    K.basis.complement *ᵥ (rest G K.basis j).get
      = K.basis.complement *ᵥ (G.toMatrix *ᵥ (K.basis.col j).get) := by
  rw [rest, get_project (hB.upTo (j + 1)), mulVec_sub, mulVec_sum, Mat.get_transform_eq_mulVec,
    sub_eq_self]
  refine Finset.sum_eq_zero fun i _ => ?_
  rw [mulVec_smul, hB.complement_mulVec_col, smul_zero]

/-- Only the image of the last column leaves the span by more than what counts as zero, and then by
no more than the last coupling. -/
theorem Recurs.length_complement_le (htiny : 0 ≤ tiny) (hB : K.basis.OrthonormalColumns) {j : Fin m}
    (hK : K.Recurs G tiny j) :
    length (K.basis.complement *ᵥ (G.toMatrix *ᵥ (K.basis.col j).get))
      ≤ tiny + if j.val + 1 = m then K.coupling.get j else 0 := by
  have hle := hB.length_complement_mulVec_le (rest G K.basis j).get
  rw [complement_mulVec_rest hB, ← norm_eq_length] at hle
  rcases hK.coupling with ⟨hsmall, hzero⟩ | ⟨-, hcoupling, hnext⟩
  · rw [hzero, ite_self, add_zero]
    exact hle.trans hsmall
  · rcases Nat.lt_or_eq_of_le (Nat.succ_le_of_lt j.isLt) with hroom | hlast
    · rw [← complement_mulVec_rest hB, hnext hroom, mulVec_smul, hB.complement_mulVec_col,
        smul_zero, length_zero, if_neg hroom.ne, add_zero]
      exact htiny
    · rw [if_pos hlast, hcoupling]
      linarith

/-- The same for a column with a coefficient of at most one. -/
theorem Recurs.length_smul_complement_le (htiny : 0 ≤ tiny) (hB : K.basis.OrthonormalColumns)
    {j : Fin m} (hK : K.Recurs G tiny j) {a : ℝ} (ha : |a| ≤ 1) :
    length (a • (K.basis.complement *ᵥ (G.toMatrix *ᵥ (K.basis.col j).get)))
      ≤ tiny + if j.val + 1 = m then K.coupling.get j * |a| else 0 := by
  calc length (a • (K.basis.complement *ᵥ (G.toMatrix *ᵥ (K.basis.col j).get)))
      = |a| * length (K.basis.complement *ᵥ (G.toMatrix *ᵥ (K.basis.col j).get)) :=
        length_smul _ _
    _ ≤ |a| * (tiny + if j.val + 1 = m then K.coupling.get j else 0) :=
        mul_le_mul_of_nonneg_left (hK.length_complement_le htiny hB) (abs_nonneg _)
    _ = |a| * tiny + if j.val + 1 = m then K.coupling.get j * |a| else 0 := by
        rw [mul_add, mul_ite, mul_zero, mul_comm (K.coupling.get j)]
    _ ≤ tiny + if j.val + 1 = m then K.coupling.get j * |a| else 0 :=
        add_le_add_left (mul_le_of_le_one_left htiny ha) _

section Combination

variable (htiny : 0 ≤ tiny) (hB : K.basis.OrthonormalColumns) (hK : ∀ j, K.Recurs G tiny j)
  {s : Vector ℝ m} (hs : Normalized s) (hm : 0 < m)

include htiny hB hK hs

/-- What leaves the span of the image of a combination is the residual estimate, up to what counts
as zero for each column. -/
theorem length_complement_combination_le :
    length (K.basis.complement *ᵥ (G.toMatrix *ᵥ (K.basis.toMatrix *ᵥ s.get)))
      ≤ m * tiny + K.residual s hm := by
  by_cases hfull : m = n
  · subst hfull
    rw [Mat.OrthonormalColumns.complement_eq_zero hB, zero_mulVec, length_zero, residual,
      if_pos rfl, add_zero]
    exact mul_nonneg m.cast_nonneg htiny
  have himage : K.basis.complement *ᵥ (G.toMatrix *ᵥ (K.basis.toMatrix *ᵥ s.get))
      = ∑ j, s.get j • (K.basis.complement *ᵥ (G.toMatrix *ᵥ (K.basis.col j).get)) := by
    simp only [K.basis.mulVec_eq_sum_smul_col, mulVec_sum, mulVec_smul]
  have hone : ∀ j, |s.get j| ≤ 1 := fun j =>
    (abs_apply_le_length s.get j).trans_eq hs.length_eq_one
  let last : Fin m := ⟨m - 1, Nat.sub_lt hm Nat.one_pos⟩
  have hlast : ∀ j : Fin m, j.val + 1 = m ↔ j = last := by
    intro j
    rw [Fin.ext_iff]
    show j.val + 1 = m ↔ j.val = m - 1
    omega
  have hestimate : (∑ j : Fin m, if j.val + 1 = m then K.coupling.get j * |s.get j| else 0)
      = K.residual s hm := by
    simp only [hlast, Finset.sum_ite_eq', Finset.mem_univ, if_true]
    rw [residual, if_neg hfull]
    rfl
  calc length (K.basis.complement *ᵥ (G.toMatrix *ᵥ (K.basis.toMatrix *ᵥ s.get)))
      ≤ ∑ j, length (s.get j •
          (K.basis.complement *ᵥ (G.toMatrix *ᵥ (K.basis.col j).get))) :=
        himage ▸ length_sum_le _ _
    _ ≤ ∑ j : Fin m, (tiny + if j.val + 1 = m then K.coupling.get j * |s.get j| else 0) :=
        Finset.sum_le_sum fun j _ => (hK j).length_smul_complement_le htiny hB (hone j)
    _ = m * tiny + K.residual s hm := by
        rw [Finset.sum_add_distrib, hestimate, Finset.sum_const, Finset.card_univ,
          Fintype.card_fin, nsmul_eq_mul]

/-- **The residual of a combination** is that of its coefficients in the tridiagonal matrix and the
residual estimate, up to the couplings that were dropped and the parts that count as zero. -/
theorem length_residual_combination_le (hG : G.toMatrix.IsSymm) (θ : ℝ) :
    length (G.toMatrix *ᵥ (K.basis.toMatrix *ᵥ s.get) - θ • (K.basis.toMatrix *ᵥ s.get))
      ≤ norm (K.tridiagonal.residual θ s) + K.residual s hm + 2 * (m * tiny) := by
  have hdropped : length (K.basis.toMatrix *ᵥ
      ((K.basis.compress G - K.tridiagonal.toMatrix) *ᵥ s.get)) ≤ m * tiny := by
    rw [hB.length_mulVec]
    refine (length_mulVec_le_of_abs_le (abs_compress_sub_le hB hG hK htiny) htiny s.get).trans_eq ?_
    rw [hs.length_eq_one, mul_one]
  have hpair : length (K.basis.toMatrix *ᵥ (K.tridiagonal.residual θ s).get)
      = norm (K.tridiagonal.residual θ s) := by
    rw [hB.length_mulVec, norm_eq_length]
  have houtside := length_complement_combination_le htiny hB hK hs hm
  rw [K.basis.mulVec_sub_smul_eq G K.tridiagonal θ s]
  calc length _ ≤ length _ + length _ := length_add_le _ _
    _ ≤ length _ + length _ + length _ := by
        gcongr
        exact length_add_le _ _
    _ ≤ norm (K.tridiagonal.residual θ s) + K.residual s hm + 2 * (m * tiny) := by
        rw [hpair]
        linarith

end Combination

end Krylov

/-! ## Ritz pairs -/

namespace Lanczos

section Restart

variable {l : Lanczos ℝ} {G : Mat ℝ n n} {hm : 0 < m} {hmn : m ≤ n} {v : Vector ℝ n}
  {K : Krylov ℝ n m} {value residual : ℝ}

/-- The eigenpairs of the tridiagonal matrix. -/
theorem norm_residual_ritzPairs_le (hl : 0 ≤ l.epsZero) (hG : G.toMatrix.IsSymm)
    (hconv : (l.ritzPairs G G.norm hm hmn v K).converged = true) (i : Fin m) :
    norm ((l.basisFrom G G.norm hm hmn v K).tridiagonal.residual
        ((l.ritzPairs G G.norm hm hmn v K).values.get i)
        ((l.ritzPairs G G.norm hm hmn v K).basis.col i))
      ≤ m * (l.epsZero * G.norm) := by
  have hT := Krylov.isSymm_tridiagonal (l.basisFrom G G.norm hm hmn v K)
  have hnorm : (l.basisFrom G G.norm hm hmn v K).tridiagonal.norm ≤ G.norm :=
    norm_tridiagonal_basisFrom_le hl hG
  have hoff : ∀ j, j ≠ i → |(l.ritzPairs G G.norm hm hmn v K).mat.get j i|
      ≤ l.epsZero * G.norm := fun j hji =>
    (abs_get_eigen_le hT hl hconv hji).trans (mul_le_mul_of_nonneg_left hnorm hl)
  have hroot : √((m : ℝ) - 1) ≤ m := by
    rw [Real.sqrt_le_left m.cast_nonneg]
    nlinarith [(Nat.cast_nonneg m : (0 : ℝ) ≤ m)]
  have hvalue : (l.ritzPairs G G.norm hm hmn v K).values.get i
      = (l.ritzPairs G G.norm hm hmn v K).mat.get i i := Mat.get_diagonal _ _
  have htiny : 0 ≤ l.epsZero * G.norm := mul_nonneg hl G.zero_le_norm
  rw [hvalue]
  exact ((writes_eigen hT l.epsZero l.maxIter).norm_residual_le htiny hoff).trans
    (mul_le_mul_of_nonneg_right hroot htiny)

/-- The residual of a Ritz pair is its residual estimate, up to three errors of `m ε ‖G‖`. -/
theorem length_residual_restart_le (hl : 0 ≤ l.epsZero) (hG : G.toMatrix.IsSymm)
    (h : (l.restart G G.norm hm hmn v K).ritz = some (value, residual)) :
    length (G.toMatrix *ᵥ (l.restart G G.norm hm hmn v K).vec.get
        - value • (l.restart G G.norm hm hmn v K).vec.get)
      ≤ residual + 3 * (m * (l.epsZero * G.norm)) := by
  have htiny : 0 ≤ l.epsZero * G.norm := mul_nonneg hl G.zero_le_norm
  have hB : (l.basisFrom G G.norm hm hmn v K).basis.OrthonormalColumns :=
    orthonormalColumns_basisFrom hl G.zero_le_norm
  obtain ⟨hconv, i, hvalue, -, hresidual, hvec⟩ := exists_of_restart_eq_some h
  have hs : Normalized ((l.ritzPairs G G.norm hm hmn v K).basis.col i) :=
    (orthonormalColumns_eigen _ _ _).normalized_col i
  have hpair := norm_residual_ritzPairs_le hl hG hconv i
  have hcombination := Krylov.length_residual_combination_le htiny hB (recurs_basisFrom hl) hs hm hG
    value
  rw [hvec, Krylov.get_combine hB hs, hresidual]
  rw [← hvalue] at hpair
  linarith

end Restart

/-! ## Extractions -/

section Extractions

variable {l : Lanczos ℝ} {G : Mat ℝ n n} {tol value : ℝ} {vec : Vector ℝ n}
  {K : Krylov ℝ n (basisDim l.krylovDim n)} (hl : 0 ≤ l.epsZero) (hn : 0 < n)
  (h : (l.topEig G tol vec K).outcome = .ok value)

include hl hn h

/-- A matrix that is taken for zero takes every unit vector to a small one. -/
theorem length_residual_topEig_of_norm_le (hsmall : G.norm ≤ l.epsZero) :
    length (G.toMatrix *ᵥ (l.topEig G tol vec K).vec.get
      - value • (l.topEig G tol vec K).vec.get) ≤ l.epsZero := by
  rw [topEig_of_norm_le hn hsmall] at h ⊢
  cases h
  have himage := G.length_mulVec_le_norm (normalize l.epsZero vec hn).get
  rw [(normalized_normalize hl vec hn).length_eq_one, mul_one] at himage
  rw [zero_smul, sub_zero]
  exact himage.trans hsmall

theorem length_residual_topEig_of_lt_norm (hG : G.toMatrix.IsSymm) (hlarge : l.epsZero < G.norm) :
    length (G.toMatrix *ᵥ (l.topEig G tol vec K).vec.get
        - value • (l.topEig G tol vec K).vec.get)
      ≤ (tol + 4 * basisDim l.krylovDim n * l.epsZero) * G.norm := by
  obtain ⟨R, -, v, K', residual, hends⟩ := exists_endsAt_topEig hn hlarge h
  have hritz := length_residual_restart_le hl hG hends.ritz
  have haccept := hends.residual_le
  have herror : 0 ≤ basisDim l.krylovDim n * (l.epsZero * G.norm) :=
    mul_nonneg (Nat.cast_nonneg _) (mul_nonneg hl G.zero_le_norm)
  rw [hends.vec]
  linarith

end Extractions

/-- **Accepted Ritz pairs are approximate eigenpairs.** The value and the vector of an extraction
from a symmetric matrix that succeeds leave a residual of at most `(tol + 4 m ε) ‖G‖`, or of at most
`ε` if the norm is taken for zero. So the value is within that of an eigenvalue. -/
theorem accepted_pair_residual_le (l : Lanczos ℝ) (hl : 0 ≤ l.epsZero) (hn : 0 < n) {G : Mat ℝ n n}
    (hG : G.toMatrix.IsSymm) (tol : ℝ) (vec : Vector ℝ n)
    (K : Krylov ℝ n (basisDim l.krylovDim n)) {value : ℝ}
    (h : (l.topEig G tol vec K).outcome = .ok value) :
    IsEigenpairUpTo G (if G.norm ≤ l.epsZero then l.epsZero
      else (tol + 4 * basisDim l.krylovDim n * l.epsZero) * G.norm) value
        (l.topEig G tol vec K).vec := by
  refine isEigenpairUpTo_of_length_le hn hG (normalized_topEig hl hn G tol vec K h) ?_
  split
  · rename_i hsmall
    exact length_residual_topEig_of_norm_le hl hn h hsmall
  · rename_i hlarge
    exact length_residual_topEig_of_lt_norm hl hn h hG (not_le.1 hlarge)

/-- With tolerance zero, the extraction from the exchange of two coordinates finds an eigenpair up to
`8 / 100` of the norm. -/
theorem exchange_accepted_pair_residual_le :
    (0 ≤ patientLanczos.epsZero ∧ exchange.toMatrix.IsSymm) ∧
      ∃ value, (patientLanczos.topEig exchange 0 Extractor.zeroVector zeroKrylov).outcome
          = .ok value ∧
        IsEigenpairUpTo exchange (8 / 100 * exchange.norm) value
          (patientLanczos.topEig exchange 0 Extractor.zeroVector zeroKrylov).vec := by
  have hl : 0 ≤ patientLanczos.epsZero := patientLanczos_epsZero_pos.le
  obtain ⟨value, hok⟩ := exists_topEig_patientLanczos_eq_ok epsZero_lt_norm_exchange
  have hpair := accepted_pair_residual_le patientLanczos hl Nat.two_pos isSymm_exchange 0
    Extractor.zeroVector zeroKrylov hok
  have herror : (0 + 4 * (basisDim patientLanczos.krylovDim 2 : ℝ) * patientLanczos.epsZero)
      * exchange.norm = 8 / 100 * exchange.norm := by
    have hdim : basisDim patientLanczos.krylovDim 2 = 2 := rfl
    rw [hdim, patientLanczos_epsZero]
    norm_num
  rw [if_neg (not_le.2 epsZero_lt_norm_exchange), herror] at hpair
  exact ⟨⟨hl, isSymm_exchange⟩, value, hok, hpair⟩

end Lanczos

end Spectrahedron
