import Mathlib.Algebra.Order.BigOperators.Ring.Finset
import Spectrahedron.Proofs.Points

/-!
# Quadratic forms and the largest eigenvalue

The largest eigenvalue of a symmetric matrix is the largest value of its quadratic form at a unit
vector. The form is bounded by the Frobenius norm of the matrix, and by its dimension times a bound
of its entries.

**Theorem (`exists_quadratic_eq_topEigenvalue`, `abs_quadratic_le_norm`,
`abs_dotProduct_mulVec_le`).** These are the three facts.
-/

namespace Spectrahedron

open Scalar Matrix

variable {m n : ℕ}

/-- **The Cauchy–Schwarz inequality.** -/
theorem sq_dotProduct_le (x y : Fin n → ℝ) : (x ⬝ᵥ y) ^ 2 ≤ (x ⬝ᵥ x) * (y ⬝ᵥ y) := by
  have h := Finset.sum_mul_sq_le_sq_mul_sq Finset.univ x y
  simpa only [dotProduct, sq] using h

/-! ## Lengths -/

/-- The Euclidean length. -/
noncomputable def length (x : Fin n → ℝ) : ℝ := √(x ⬝ᵥ x)

theorem norm_eq_length (v : Vector ℝ n) : norm v = length v.get := norm_eq_sqrt v

theorem Normalized.length_eq_one {v : Vector ℝ n} (hv : Normalized v) : length v.get = 1 := by
  rw [← norm_eq_length, hv.norm_eq_one]

theorem length_nonneg (x : Fin n → ℝ) : 0 ≤ length x := Real.sqrt_nonneg _

theorem length_sq (x : Fin n → ℝ) : length x ^ 2 = x ⬝ᵥ x :=
  Real.sq_sqrt (dotProduct_self_nonneg x)

theorem abs_dotProduct_le_length (x y : Fin n → ℝ) : |x ⬝ᵥ y| ≤ length x * length y := by
  refine abs_le_of_sq_le_sq ?_ (mul_nonneg (length_nonneg x) (length_nonneg y))
  rw [mul_pow, length_sq, length_sq]
  exact sq_dotProduct_le x y

theorem abs_dotProduct_le_norm {v : Vector ℝ n} (hv : Normalized v) (w : Vector ℝ n) :
    |v.get ⬝ᵥ w.get| ≤ norm w := by
  have h := abs_dotProduct_le_length v.get w.get
  rwa [hv.length_eq_one, one_mul, ← norm_eq_length] at h

/-- The sum of the squares of the entries bounds the square of the factor by which a matrix
lengthens. -/
theorem length_mulVec_le {A : Matrix (Fin n) (Fin m) ℝ} {c : ℝ} (hc : 0 ≤ c)
    (hA : ∑ i, ∑ j, A i j ^ 2 ≤ c ^ 2) (x : Fin m → ℝ) : length (A *ᵥ x) ≤ c * length x := by
  refine le_of_sq_le_sq ?_ (mul_nonneg hc (length_nonneg x))
  rw [mul_pow, length_sq, length_sq]
  calc (A *ᵥ x) ⬝ᵥ (A *ᵥ x) = ∑ i, (A i ⬝ᵥ x) ^ 2 :=
        Finset.sum_congr rfl fun i _ => (sq _).symm
    _ ≤ ∑ i, (A i ⬝ᵥ A i) * (x ⬝ᵥ x) := Finset.sum_le_sum fun i _ => sq_dotProduct_le _ _
    _ = (∑ i, ∑ j, A i j ^ 2) * (x ⬝ᵥ x) := by
        rw [Finset.sum_mul]
        simp only [dotProduct, sq]
    _ ≤ c ^ 2 * (x ⬝ᵥ x) := mul_le_mul_of_nonneg_right hA (dotProduct_self_nonneg x)

/-! ## The Frobenius norm -/

namespace Mat

/-- The inner product of matrices is that of their flat forms. -/
theorem frobenius_eq_dotProduct (A B : Mat ℝ m n) :
    A.frobenius B = A.data.get ⬝ᵥ B.data.get := by
  unfold frobenius
  rw [← Fintype.sum_prod_type']
  exact Fintype.sum_equiv indexEquiv _ _ fun _ => rfl

theorem norm_sq_eq_frobenius (A : Mat ℝ m n) : A.norm ^ 2 = A.frobenius A := by
  rw [frobenius_eq_dotProduct]
  exact norm_sq A.data

theorem sumSquares_data (A : Mat ℝ m n) : sumSquares A.data = A.norm ^ 2 := by
  rw [norm_sq_eq_frobenius, frobenius_eq_dotProduct]
  exact inner_eq_dotProduct _ _

theorem abs_get_le_norm (A : Mat ℝ m n) (r : Fin m) (c : Fin n) : |A.get r c| ≤ A.norm := by
  refine abs_le_of_sq_le_sq ?_ A.zero_le_norm
  rw [norm_sq_eq_frobenius, sq]
  calc A.get r c * A.get r c ≤ ∑ c', A.get r c' * A.get r c' :=
        Finset.single_le_sum (fun _ _ => mul_self_nonneg _) (Finset.mem_univ c)
    _ ≤ A.frobenius A :=
        Finset.single_le_sum (f := fun r' => ∑ c', A.get r' c' * A.get r' c')
          (fun _ _ => Finset.sum_nonneg fun _ _ => mul_self_nonneg _) (Finset.mem_univ r)

theorem length_mulVec_le_norm (A : Mat ℝ m n) (x : Fin n → ℝ) :
    length (A.toMatrix *ᵥ x) ≤ A.norm * length x := by
  refine length_mulVec_le A.zero_le_norm ?_ x
  rw [A.norm_sq_eq_frobenius]
  simp only [frobenius, toMatrix_apply, sq, le_refl]

end Mat

/-- The quadratic form at a unit vector is at most the Frobenius norm. -/
theorem abs_quadratic_le_norm (A : Mat ℝ n n) {v : Vector ℝ n} (hv : Normalized v) :
    |A.quadratic v| ≤ A.norm := by
  calc |A.quadratic v| ≤ length v.get * length (A.toMatrix *ᵥ v.get) :=
        abs_dotProduct_le_length _ _
    _ ≤ length v.get * (A.norm * length v.get) :=
        mul_le_mul_of_nonneg_left (A.length_mulVec_le_norm _) (length_nonneg _)
    _ = A.norm := by rw [hv.length_eq_one, one_mul, mul_one]

/-! ## Small entries -/

section SmallEntries

variable {E : Matrix (Fin n) (Fin n) ℝ} {δ : ℝ} (h : ∀ i j, |E i j| ≤ δ)

include h

/-- A matrix with small entries takes vectors to short ones. -/
theorem length_mulVec_le_of_abs_le (hδ : 0 ≤ δ) (x : Fin n → ℝ) :
    length (E *ᵥ x) ≤ n * δ * length x := by
  refine length_mulVec_le (mul_nonneg n.cast_nonneg hδ) ?_ x
  have hentry : ∀ i j, E i j ^ 2 ≤ δ ^ 2 := fun i j => by
    rw [← sq_abs (E i j)]
    exact pow_le_pow_left₀ (abs_nonneg _) (h i j) 2
  calc ∑ i, ∑ j, E i j ^ 2 ≤ ∑ _i : Fin n, ∑ _j : Fin n, δ ^ 2 :=
        Finset.sum_le_sum fun i _ => Finset.sum_le_sum fun j _ => hentry i j
    _ = (n * δ) ^ 2 := by
        simp only [Finset.sum_const, Finset.card_univ, Fintype.card_fin, nsmul_eq_mul]
        ring

/-- It has a small quadratic form. -/
theorem abs_dotProduct_mulVec_le (x : Fin n → ℝ) : |x ⬝ᵥ (E *ᵥ x)| ≤ n * δ * (x ⬝ᵥ x) := by
  rcases Nat.eq_zero_or_pos n with rfl | hn
  · simp
  have hδ : 0 ≤ δ := (abs_nonneg _).trans (h ⟨0, hn⟩ ⟨0, hn⟩)
  calc |x ⬝ᵥ (E *ᵥ x)| ≤ length x * length (E *ᵥ x) := abs_dotProduct_le_length _ _
    _ ≤ length x * (n * δ * length x) :=
        mul_le_mul_of_nonneg_left (length_mulVec_le_of_abs_le h hδ x) (length_nonneg x)
    _ = n * δ * length x ^ 2 := by ring
    _ = n * δ * (x ⬝ᵥ x) := by rw [length_sq]

end SmallEntries

/-- If the entries off the diagonal are small, then the quadratic form is not much larger than the
largest entry on it. -/
theorem dotProduct_mulVec_le_of_offDiag {D : Matrix (Fin n) (Fin n) ℝ} {top δ : ℝ} (hδ : 0 ≤ δ)
    (hdiag : ∀ i, D i i ≤ top) (hoff : ∀ i j, i ≠ j → |D i j| ≤ δ) (x : Fin n → ℝ) :
    x ⬝ᵥ (D *ᵥ x) ≤ (top + n * δ) * (x ⬝ᵥ x) := by
  have hrest : ∀ i j, |(D - Matrix.diagonal D.diag) i j| ≤ δ := by
    intro i j
    rw [Matrix.sub_apply]
    by_cases hij : i = j
    · rw [hij, diagonal_apply_eq, diag_apply, sub_self, abs_zero]
      exact hδ
    · rw [diagonal_apply_ne _ hij, sub_zero]
      exact hoff i j hij
  have hdiagonal : x ⬝ᵥ (Matrix.diagonal D.diag *ᵥ x) ≤ top * (x ⬝ᵥ x) := by
    simp only [dotProduct, mulVec_diagonal, diag_apply, Finset.mul_sum]
    refine Finset.sum_le_sum fun i _ => ?_
    have h := mul_le_mul_of_nonneg_right (hdiag i) (mul_self_nonneg (x i))
    linarith
  have hsplit : x ⬝ᵥ (D *ᵥ x) = x ⬝ᵥ (Matrix.diagonal D.diag *ᵥ x)
      + x ⬝ᵥ ((D - Matrix.diagonal D.diag) *ᵥ x) := by
    rw [← dotProduct_add, ← add_mulVec, add_sub_cancel]
  have hsmall := (abs_le.1 (abs_dotProduct_mulVec_le hrest x)).2
  linarith

/-! ## The largest eigenvalue -/

/-- The largest eigenvalue is attained by the quadratic form. -/
theorem exists_quadratic_eq_topEigenvalue (hn : 0 < n) {G : Mat ℝ n n} (hG : G.toMatrix.IsSymm) :
    ∃ v : Vector ℝ n, Normalized v ∧ G.quadratic v = G.topEigenvalue := by
  have hH : G.toMatrix.IsHermitian := isHermitian_iff_isSymm.2 hG
  have hmem := (isGreatest_topEigenvalue hn hG).1
  rw [hH.spectrum_real_eq_range_eigenvalues] at hmem
  obtain ⟨i, hi⟩ := hmem
  let u : Fin n → ℝ := (hH.eigenvectorBasis i).ofLp
  have hunit : u ⬝ᵥ u = 1 := by
    have hnorm := EuclideanSpace.real_norm_sq_eq (hH.eigenvectorBasis i)
    rw [hH.eigenvectorBasis.orthonormal.1 i, one_pow] at hnorm
    simpa only [dotProduct, ← sq] using hnorm.symm
  have hget : (Vector.ofFn u).get = u := funext fun k => Vec.get_ofFn u k
  refine ⟨Vector.ofFn u, ?_, ?_⟩
  · rw [Normalized, hget]
    exact hunit
  · have heig : G.toMatrix *ᵥ u = hH.eigenvalues i • u := hH.mulVec_eigenvectorBasis i
    rw [Mat.quadratic, hget, heig, dotProduct_smul, hunit, hi, smul_eq_mul, mul_one]

theorem topEigenvalue_le (hn : 0 < n) {G : Mat ℝ n n} (hG : G.toMatrix.IsSymm) {c : ℝ}
    (h : ∀ v : Vector ℝ n, Normalized v → G.quadratic v ≤ c) : G.topEigenvalue ≤ c := by
  obtain ⟨v, hv, hmax⟩ := exists_quadratic_eq_topEigenvalue hn hG
  exact hmax ▸ h v hv

/-! ## Compressions -/

namespace Mat

/-- A matrix seen in the span of the columns of another one, `Bᵀ A B`. -/
def compress (B : Mat ℝ n m) (A : Mat ℝ n n) : Matrix (Fin m) (Fin m) ℝ :=
  B.toMatrixᵀ * A.toMatrix * B.toMatrix

theorem compress_apply (B : Mat ℝ n m) (A : Mat ℝ n n) (i j : Fin m) :
    B.compress A i j = (B.col i).get ⬝ᵥ (A.toMatrix *ᵥ (B.col j).get) := by
  rw [get_col_eq, get_col_eq, compress, Matrix.mul_assoc]
  rfl

theorem isSymm_compress (B : Mat ℝ n m) {A : Mat ℝ n n} (hA : A.toMatrix.IsSymm) :
    (B.compress A).IsSymm := by
  unfold compress IsSymm
  rw [transpose_mul, transpose_mul, transpose_transpose, hA, Matrix.mul_assoc]

/-- The quadratic form of the compression is that of the matrix, at the combination of the columns.
-/
theorem dotProduct_compress_mulVec (B : Mat ℝ n m) (A : Mat ℝ n n) (y : Fin m → ℝ) :
    y ⬝ᵥ (B.compress A *ᵥ y)
      = (B.toMatrix *ᵥ y) ⬝ᵥ (A.toMatrix *ᵥ (B.toMatrix *ᵥ y)) := by
  rw [compress, ← mulVec_mulVec, ← mulVec_mulVec, Matrix.dotProduct_mulVec, vecMul_transpose]

namespace OrthonormalColumns

variable {B : Mat ℝ n m}

/-- The square of the distance to the span of orthonormal vectors. -/
theorem dotProduct_sub_mulVec_transpose (hB : B.OrthonormalColumns) (x : Fin n → ℝ) :
    (x - B.toMatrix *ᵥ (B.toMatrixᵀ *ᵥ x)) ⬝ᵥ (x - B.toMatrix *ᵥ (B.toMatrixᵀ *ᵥ x))
      = x ⬝ᵥ x - (B.toMatrixᵀ *ᵥ x) ⬝ᵥ (B.toMatrixᵀ *ᵥ x) := by
  have hcross : x ⬝ᵥ (B.toMatrix *ᵥ (B.toMatrixᵀ *ᵥ x))
      = (B.toMatrixᵀ *ᵥ x) ⬝ᵥ (B.toMatrixᵀ *ᵥ x) := by
    rw [Matrix.dotProduct_mulVec, mulVec_transpose]
  have hcross' := (dotProduct_comm (B.toMatrix *ᵥ (B.toMatrixᵀ *ᵥ x)) x).trans hcross
  rw [sub_dotProduct, dotProduct_sub, dotProduct_sub, hB.dotProduct_mulVec, hcross, hcross',
    sub_self, sub_zero]

/-- **Bessel's inequality.** The components along orthonormal vectors have no larger norm. -/
theorem dotProduct_transpose_mulVec_le (hB : B.OrthonormalColumns) (x : Fin n → ℝ) :
    (B.toMatrixᵀ *ᵥ x) ⬝ᵥ (B.toMatrixᵀ *ᵥ x) ≤ x ⬝ᵥ x := by
  have hrest := dotProduct_self_nonneg (x - B.toMatrix *ᵥ (B.toMatrixᵀ *ᵥ x))
  rw [hB.dotProduct_sub_mulVec_transpose] at hrest
  linarith

theorem trace_transpose_mul_le (hB : B.OrthonormalColumns) {k : ℕ}
    (C : Matrix (Fin n) (Fin k) ℝ) :
    ((B.toMatrixᵀ * C)ᵀ * (B.toMatrixᵀ * C)).trace ≤ (Cᵀ * C).trace :=
  Finset.sum_le_sum fun c _ => hB.dotProduct_transpose_mulVec_le (C.col c)

/-- A compression has no larger Frobenius norm. -/
theorem sum_sq_compress_le (hB : B.OrthonormalColumns) (A : Mat ℝ n n) :
    ∑ i, ∑ j, B.compress A i j ^ 2 ≤ A.norm ^ 2 := by
  have hswap : ∀ M : Matrix (Fin n) (Fin m) ℝ, (Mᵀ * M).trace = (Mᵀᵀ * Mᵀ).trace := fun M => by
    rw [transpose_transpose, trace_mul_comm]
  calc ∑ i, ∑ j, B.compress A i j ^ 2 = ((B.compress A)ᵀ * B.compress A).trace := by
        rw [Finset.sum_comm]
        simp only [sq]
        rfl
    _ ≤ ((A.toMatrix * B.toMatrix)ᵀ * (A.toMatrix * B.toMatrix)).trace := by
        rw [compress, Matrix.mul_assoc]
        exact hB.trace_transpose_mul_le _
    _ = ((B.toMatrixᵀ * A.toMatrixᵀ)ᵀ * (B.toMatrixᵀ * A.toMatrixᵀ)).trace := by
        rw [hswap, transpose_mul]
    _ ≤ (A.toMatrixᵀᵀ * A.toMatrixᵀ).trace := hB.trace_transpose_mul_le _
    _ = A.norm ^ 2 := by rw [norm_sq_eq_frobenius, frobenius_eq_trace, transpose_transpose]

/-- Every vector is a combination of as many orthonormal vectors as there are dimensions. -/
theorem mulVec_transpose_mulVec {B : Mat ℝ n n} (hB : B.OrthonormalColumns) (x : Fin n → ℝ) :
    B.toMatrix *ᵥ (B.toMatrixᵀ *ᵥ x) = x := by
  rw [mulVec_mulVec, mul_eq_one_comm.1 hB, one_mulVec]

/-- A matrix written in an orthonormal basis has the trace that it had. -/
theorem trace_transpose_mul_mul {B : Mat ℝ n n} (hB : B.OrthonormalColumns)
    (M : Matrix (Fin n) (Fin n) ℝ) : (B.toMatrixᵀ * M * B.toMatrix).trace = M.trace := by
  rw [trace_mul_comm, ← Matrix.mul_assoc, mul_eq_one_comm.1 hB, Matrix.one_mul]

/-- It has the Frobenius norm that it had. -/
theorem sum_sq_compress_eq {B : Mat ℝ n n} (hB : B.OrthonormalColumns) (A : Mat ℝ n n) :
    ∑ i, ∑ j, B.compress A i j ^ 2 = A.norm ^ 2 := by
  calc ∑ i, ∑ j, B.compress A i j ^ 2 = (B.compress A * (B.compress A)ᵀ).trace := by
        simp only [sq]
        rfl
    _ = (B.toMatrixᵀ * (A.toMatrix * A.toMatrixᵀ) * B.toMatrix).trace := by
        rw [compress, transpose_mul, transpose_mul, transpose_transpose]
        simp only [Matrix.mul_assoc]
        rw [← Matrix.mul_assoc B.toMatrix B.toMatrixᵀ, mul_eq_one_comm.1 hB, Matrix.one_mul]
    _ = A.norm ^ 2 := by
        rw [hB.trace_transpose_mul_mul, norm_sq_eq_frobenius, frobenius_eq_trace]

end OrthonormalColumns

end Mat

/-- The largest eigenvalue may be sought in the coordinates of an orthonormal basis. -/
theorem topEigenvalue_le_of_compress (hn : 0 < n) {G : Mat ℝ n n} (hG : G.toMatrix.IsSymm)
    {B : Mat ℝ n n} (hB : B.OrthonormalColumns) {c : ℝ}
    (h : ∀ y : Fin n → ℝ, y ⬝ᵥ y = 1 → y ⬝ᵥ (B.compress G *ᵥ y) ≤ c) : G.topEigenvalue ≤ c := by
  refine topEigenvalue_le hn hG fun v hv => ?_
  have hback := hB.mulVec_transpose_mulVec v.get
  have hunit : (B.toMatrixᵀ *ᵥ v.get) ⬝ᵥ (B.toMatrixᵀ *ᵥ v.get) = 1 := by
    rw [← hB.dotProduct_mulVec, hback]
    exact hv
  have hform := h _ hunit
  rwa [Mat.dotProduct_compress_mulVec, hback] at hform

end Spectrahedron
