import Spectrahedron.Proofs.Jacobi
import Spectrahedron.Proofs.Rayleigh

/-!
# The cyclic Jacobi method works by similarity

The tangent of a rotation is a root of the quadratic equation which says that the rotated matrix has
a zero in the chosen place. So an exact zero may be written there, and at every moment the matrix is
the given one, written in the basis. Its Frobenius norm does not grow.

A sweep that rotates nothing has found every entry off the diagonal small, as compared with the
norm. So the largest entry on the diagonal is close to the largest eigenvalue.

**Theorem (`writes_eigen`, `abs_get_eigen_le`, `topEigenvalue_le_eigen`).** These are the three
facts.
-/

namespace Spectrahedron

open Scalar Matrix

variable {n : ℕ}

/-! ## One rotation -/

namespace Rotation

/-- The rotated matrix has a zero between the diagonal entries `a` and `b`, where it had `d`. -/
def Annihilates (q : Rotation ℝ) (a b d : ℝ) : Prop :=
  q.cos * q.sin * (a - b) + (q.cos * q.cos - q.sin * q.sin) * d = 0

/-- The tangent of the rotation that annihilates an entry, from `ζ = (b - a) / 2 d`. -/
noncomputable def tangent (ζ : ℝ) : ℝ :=
  if 0 < ζ then 1 / (ζ + √(1 + ζ * ζ)) else -1 / (-ζ + √(1 + ζ * ζ))

/-- It is a root of `t² + 2 ζ t - 1`. -/
theorem tangent_root (ζ : ℝ) : tangent ζ * tangent ζ + 2 * ζ * tangent ζ - 1 = 0 := by
  have hroot : ∀ x : ℝ, 0 ≤ x → 1 / (x + √(1 + x * x)) * (1 / (x + √(1 + x * x)))
      + 2 * x * (1 / (x + √(1 + x * x))) - 1 = 0 := by
    intro x hx
    have hpos : 0 < 1 + x * x := add_pos_of_pos_of_nonneg one_pos (mul_self_nonneg x)
    have hsq : √(1 + x * x) * √(1 + x * x) = 1 + x * x := Real.mul_self_sqrt hpos.le
    have hne : x + √(1 + x * x) ≠ 0 := (add_pos_of_nonneg_of_pos hx (Real.sqrt_pos.2 hpos)).ne'
    generalize √(1 + x * x) = r at hsq hne ⊢
    field_simp
    linear_combination -hsq
  unfold tangent
  split
  · rename_i hζ
    exact hroot ζ hζ.le
  · rename_i hζ
    have hminus := hroot (-ζ) (neg_nonneg.2 (not_lt.1 hζ))
    rw [neg_mul_neg] at hminus
    rw [neg_div]
    linear_combination hminus

theorem annihilates_annihilating (a b : ℝ) {d : ℝ} (hd : d ≠ 0) :
    (annihilating a b d).Annihilates a b d := by
  have hroot := tangent_root ((b - a) / (2 * d))
  have hζ : 2 * d * ((b - a) / (2 * d)) = b - a := mul_div_cancel₀ _ (by positivity)
  have key : ∀ c : ℝ, c * (c * tangent ((b - a) / (2 * d))) * (a - b) + (c * c
      - c * tangent ((b - a) / (2 * d)) * (c * tangent ((b - a) / (2 * d)))) * d = 0 := by
    intro c
    linear_combination (-c * c * d) * hroot + c * c * tangent ((b - a) / (2 * d)) * hζ
  rw [← two_eq] at key
  exact key _

/-- The conjugated matrix is the product with the matrix of the rotation from both sides. -/
theorem toMatrix_conjugate {q : Rotation ℝ} {i j : Fin n} {X : Mat ℝ n n}
    (hX : X.toMatrix.IsSymm) (hq : q.Annihilates (X.get i i) (X.get j j) (X.get i j)) :
    (q.conjugate i j X).toMatrix = (q.plane i j)ᵀ * X.toMatrix * q.plane i j := by
  have hsymm : ∀ r k, X.get r k = X.get k r := fun r k => hX.apply k r
  unfold Annihilates at hq
  ext r k
  have hentry : ((q.plane i j)ᵀ * X.toMatrix * q.plane i j) r k
      = q.planeColumn i j r ⬝ᵥ (X.toMatrix *ᵥ q.planeColumn i j k) := by
    rw [Matrix.mul_assoc]
    rfl
  rw [hentry]
  show (q.conjugate i j X).get r k = _
  simp only [conjugate, fst, snd, Mat.get_ofFn, planeColumn, two_eq]
  split_ifs <;>
    simp only [mulVec_add, mulVec_sub, mulVec_smul, mulVec_single_one, add_dotProduct,
      sub_dotProduct, smul_dotProduct, dotProduct_add, dotProduct_sub, dotProduct_smul,
      single_one_dotProduct, Matrix.col_apply, Mat.toMatrix_apply, smul_eq_mul]
  -- Left are row `i` and then row `j`, each with the columns `i` and `j` and any other.
  · linear_combination (-q.cos * q.sin) * hsymm i j
  · linear_combination -hq - q.sin * q.sin * hsymm i j
  · rw [hsymm k i, hsymm k j]
  · linear_combination -hq + q.cos * q.cos * hsymm i j
  · linear_combination (q.cos * q.sin) * hsymm i j
  · rw [hsymm k i, hsymm k j]

end Rotation

/-! ## Sweeps -/

namespace Diagonalization

/-- The state is a matrix, written in an orthonormal basis. -/
structure Writes (A : Mat ℝ n n) (s : Diagonalization ℝ n) : Prop where
  orthonormal : s.basis.OrthonormalColumns
  toMatrix_eq : s.mat.toMatrix = s.basis.compress A

theorem Writes.isSymm {A : Mat ℝ n n} {s : Diagonalization ℝ n} (h : s.Writes A)
    (hA : A.toMatrix.IsSymm) : s.mat.toMatrix.IsSymm := by
  rw [h.toMatrix_eq]
  exact s.basis.isSymm_compress hA

theorem writes_start (A : Mat ℝ n n) : (start A).Writes A := by
  refine ⟨Mat.orthonormalColumns_identity, ?_⟩
  show A.toMatrix = (Mat.identity ℝ n).compress A
  rw [Mat.compress, Mat.toMatrix_identity, transpose_one, Matrix.one_mul, Matrix.mul_one]

/-- The norm stays as it is. -/
theorem Writes.norm_eq {A : Mat ℝ n n} {s : Diagonalization ℝ n} (h : s.Writes A) :
    s.mat.norm = A.norm := by
  refine (sq_eq_sq₀ s.mat.zero_le_norm A.zero_le_norm).1 ?_
  rw [← h.orthonormal.sum_sq_compress_eq A, Mat.norm_sq_eq_frobenius, ← h.toMatrix_eq]
  simp only [sq]
  rfl

theorem Writes.norm_le {A : Mat ℝ n n} {s : Diagonalization ℝ n} (h : s.Writes A) :
    s.mat.norm ≤ A.norm := h.norm_eq.le

/-- A rotation changes the basis and writes the same matrix in the new one. -/
theorem Writes.rotate {A : Mat ℝ n n} (hA : A.toMatrix.IsSymm) {s : Diagonalization ℝ n}
    (h : s.Writes A) {i j : Fin n} (hij : i < j) (hd : s.mat.get i j ≠ 0) :
    (s.rotate i j).Writes A := by
  refine ⟨orthonormalColumns_rotate hij h.orthonormal, ?_⟩
  show (Rotation.conjugate _ i j s.mat).toMatrix = (Rotation.columns _ i j s.basis).compress A
  rw [Rotation.toMatrix_conjugate (h.isSymm hA) (Rotation.annihilates_annihilating _ _ hd),
    Mat.compress, Rotation.toMatrix_columns, h.toMatrix_eq, Mat.compress, transpose_mul]
  simp only [Matrix.mul_assoc]

variable {tol sqNorm : ℝ} {s : Diagonalization ℝ n}

/-- The flag of a sweep: if it has not rotated, it has found nothing to rotate. -/
theorem eq_of_foldl_visit_eq_false {ps : List (Fin n × Fin n)} {t : Diagonalization ℝ n × Bool}
    (h : (ps.foldl (visit tol sqNorm) t).2 = false) :
    ps.foldl (visit tol sqNorm) t = t ∧ ∀ p ∈ ps, ¬significant tol sqNorm t.1.mat p.1 p.2 := by
  induction ps generalizing t with
  | nil => exact ⟨rfl, fun p hp => absurd hp List.not_mem_nil⟩
  | cons p ps ih =>
    obtain ⟨hsame, hrest⟩ := ih h
    rw [List.foldl_cons, hsame] at h
    have hp : ¬significant tol sqNorm t.1.mat p.1 p.2 := by
      intro hsig
      rw [visit, if_pos hsig] at h
      cases h
    rw [visit, if_neg hp] at hsame hrest
    rw [List.foldl_cons, visit, if_neg hp]
    exact ⟨hsame, List.forall_mem_cons.2 ⟨hp, hrest⟩⟩

/-- When the method converges, no entry is left to be annihilated. -/
theorem not_significant_of_sweeps {k : ℕ} (h : (sweeps tol sqNorm k s).1 = true) {i j : Fin n}
    (hij : i < j) : ¬significant tol sqNorm (sweeps tol sqNorm k s).2.mat i j := by
  induction k generalizing s with
  | zero => cases h
  | succ k ih =>
    unfold sweeps at h ⊢
    split at h
    · exact ih h
    · rename_i s' hsweep
      have hflag : (sweep tol sqNorm s).2 = false := by rw [hsweep]
      obtain ⟨hsame, hnone⟩ := eq_of_foldl_visit_eq_false hflag
      have hs : s' = s := congrArg Prod.fst (hsweep.symm.trans hsame)
      rw [hs]
      exact hnone (i, j) (mem_pairs.2 hij)

end Diagonalization

/-! ## The decomposition -/

section Eigen

variable {A : Mat ℝ n n} (hA : A.toMatrix.IsSymm) (epsZero : ℝ) (maxSweeps : ℕ)

include hA

/-- **The decomposition is a similarity**, whether or not the method has converged. -/
theorem writes_eigen : (A.eigen epsZero maxSweeps).toDiagonalization.Writes A := by
  refine Diagonalization.sweeps_invariant (P := fun s => s.Writes A) ?_ maxSweeps _
    (Diagonalization.writes_start A)
  intro s i j hij hsig hs
  exact hs.rotate hA hij
    (Diagonalization.get_ne_zero_of_significant (mul_self_nonneg epsZero) hsig)

/-- The quadratic form at a column of the basis is the entry on the diagonal. -/
theorem quadratic_col_eigen (i : Fin n) : A.quadratic ((A.eigen epsZero maxSweeps).basis.col i)
    = (A.eigen epsZero maxSweeps).values.get i := by
  have h := congrFun₂ (writes_eigen hA epsZero maxSweeps).toMatrix_eq i i
  rw [Mat.compress_apply] at h
  rw [EigenDecomposition.values, Mat.get_diagonal]
  exact h.symm

variable {epsZero maxSweeps} (heps : 0 ≤ epsZero)
  (hconv : (A.eigen epsZero maxSweeps).converged = true)

include heps hconv

/-- **What is left off the diagonal** after the method has converged. -/
theorem abs_get_eigen_le {i j : Fin n} (hij : i ≠ j) :
    |(A.eigen epsZero maxSweeps).mat.get i j| ≤ epsZero * A.norm := by
  have hwrites := writes_eigen hA epsZero maxSweeps
  wlog hlt : i < j generalizing i j with hwlog
  · have hsymm := (hwrites.isSymm hA).apply j i
    rw [Mat.toMatrix_apply, Mat.toMatrix_apply] at hsymm
    rw [hsymm]
    exact hwlog hij.symm (lt_of_le_of_ne (not_lt.1 hlt) hij.symm)
  have hentries : |(A.eigen epsZero maxSweeps).mat.get i i *
      (A.eigen epsZero maxSweeps).mat.get j j| ≤ A.norm ^ 2 := by
    rw [abs_mul, sq]
    exact mul_le_mul ((Mat.abs_get_le_norm _ i i).trans hwrites.norm_le)
      ((Mat.abs_get_le_norm _ j j).trans hwrites.norm_le) (abs_nonneg _) A.zero_le_norm
  have hsq : 0 ≤ epsZero * epsZero := mul_self_nonneg epsZero
  have hsmall : ¬Diagonalization.significant (epsZero * epsZero) (A.norm ^ 2)
      (A.eigen epsZero maxSweeps).mat i j := by
    rw [← A.sumSquares_data]
    exact Diagonalization.not_significant_of_sweeps hconv hlt
  refine abs_le_of_sq_le_sq ?_ (mul_nonneg heps A.zero_le_norm)
  rw [sq, mul_pow, sq]
  rcases not_and_or.1 hsmall with hdiag | hfar
  · exact (not_lt.1 hdiag).trans (mul_le_mul_of_nonneg_left hentries hsq)
  · exact not_lt.1 hfar

/-- The largest entry on the diagonal falls short of the largest eigenvalue by little. -/
theorem topEigenvalue_le_eigen (hn : 0 < n) {top : ℝ}
    (htop : ∀ i, (A.eigen epsZero maxSweeps).values.get i ≤ top) :
    A.topEigenvalue ≤ top + n * (epsZero * A.norm) := by
  have hwrites := writes_eigen hA epsZero maxSweeps
  have hdiag : ∀ i, (A.eigen epsZero maxSweeps).mat.toMatrix i i ≤ top := by
    intro i
    have hi := htop i
    rw [EigenDecomposition.values, Mat.get_diagonal] at hi
    exact hi
  refine topEigenvalue_le_of_compress hn hA hwrites.orthonormal fun y hy => ?_
  have hform := dotProduct_mulVec_le_of_offDiag (mul_nonneg heps A.zero_le_norm) hdiag
    (fun i j hij => abs_get_eigen_le hA heps hconv hij) y
  rwa [hwrites.toMatrix_eq, hy, mul_one] at hform

end Eigen

end Spectrahedron
