import Spectrahedron.Proofs.Linear

/-!
# The cyclic Jacobi method keeps its basis orthonormal

Each rotation multiplies the basis from the right by a matrix of a plane rotation, which is
orthogonal. A run of the method is a sequence of rotations, so whatever every rotation keeps, the
run keeps.

**Theorem (`orthonormalColumns_eigen`).** The columns of the basis are orthonormal at the end,
whether or not the method has converged.
-/

namespace Spectrahedron

open Scalar Matrix

variable {m n : ℕ}

/-! ## One rotation -/

namespace Rotation

/-- The cosine and the sine belong to an angle. -/
def Proper (q : Rotation ℝ) : Prop := q.cos * q.cos + q.sin * q.sin = 1

theorem proper_annihilating (a b d : ℝ) : (annihilating a b d).Proper := by
  -- The sum of the squares is `c² (1 + t²)`, whatever the tangent `t` is.
  have key : ∀ t : ℝ, recip (√(1 + t * t)) * recip (√(1 + t * t))
      + recip (√(1 + t * t)) * t * (recip (√(1 + t * t)) * t) = 1 := by
    intro t
    have hpos : 0 < 1 + t * t := by nlinarith [mul_self_nonneg t]
    have hsq : √(1 + t * t) * √(1 + t * t) = 1 + t * t := Real.mul_self_sqrt hpos.le
    rw [recip_eq]
    calc (√(1 + t * t))⁻¹ * (√(1 + t * t))⁻¹ + (√(1 + t * t))⁻¹ * t * ((√(1 + t * t))⁻¹ * t)
        = (√(1 + t * t) * √(1 + t * t))⁻¹ * (1 + t * t) := by rw [mul_inv]; ring
      _ = 1 := by rw [hsq, inv_mul_cancel₀ hpos.ne']
  exact key _

/-- Column `a` of a plane rotation, as a combination of coordinate directions. -/
def planeColumn (q : Rotation ℝ) (i j a : Fin n) : Fin n → ℝ :=
  if a = i then q.cos • Pi.single i 1 - q.sin • Pi.single j 1
  else if a = j then q.sin • Pi.single i 1 + q.cos • Pi.single j 1
  else Pi.single a 1

/-- The matrix of a plane rotation. -/
def plane (q : Rotation ℝ) (i j : Fin n) : Matrix (Fin n) (Fin n) ℝ :=
  Matrix.of fun r a => q.planeColumn i j a r

theorem toMatrix_columns (q : Rotation ℝ) (i j : Fin n) (Z : Mat ℝ m n) :
    (q.columns i j Z).toMatrix = Z.toMatrix * q.plane i j := by
  ext r c
  show (q.columns i j Z).get r c = Z.toMatrix r ⬝ᵥ q.planeColumn i j c
  simp only [columns, planeColumn, fst, snd, Mat.get_ofFn]
  split_ifs <;> simp [dotProduct_sub, dotProduct_add]

theorem plane_orthogonal {q : Rotation ℝ} (hq : q.Proper) {i j : Fin n} (hij : i ≠ j) :
    (q.plane i j)ᵀ * q.plane i j = 1 := by
  have hq' : q.cos * q.cos + q.sin * q.sin = 1 := hq
  ext a b
  show q.planeColumn i j a ⬝ᵥ q.planeColumn i j b = _
  rw [Matrix.one_apply]
  unfold planeColumn
  split_ifs <;> simp_all [Pi.single_apply, eq_comm] <;> linarith

end Rotation

/-! ## Sweeps -/

namespace Diagonalization

theorem mem_pairs {p : Fin n × Fin n} : p ∈ pairs n ↔ p.1 < p.2 := by
  obtain ⟨i, j⟩ := p
  simp [pairs]

theorem get_ne_zero_of_significant {tol sqNorm : ℝ} (htol : 0 ≤ tol) {X : Mat ℝ n n} {i j : Fin n}
    (h : significant tol sqNorm X i j) : X.get i j ≠ 0 := by
  intro hzero
  obtain ⟨hlarge, -⟩ := h
  rw [hzero, mul_zero] at hlarge
  exact absurd hlarge (not_lt.2 (mul_nonneg htol (abs_nonneg _)))

variable {α : Type} [Scalar α] {tol sqNorm : α} {P : Diagonalization α n → Prop}

theorem foldl_visit_invariant
    (hrotate : ∀ s i j, i < j → significant tol sqNorm s.mat i j → P s → P (s.rotate i j))
    (ps : List (Fin n × Fin n)) (hps : ∀ p ∈ ps, p.1 < p.2) (s : Diagonalization α n × Bool)
    (hs : P s.1) : P (ps.foldl (visit tol sqNorm) s).1 := by
  induction ps generalizing s with
  | nil => exact hs
  | cons p ps ih =>
    refine ih (fun p' hp' => hps p' (List.mem_cons_of_mem _ hp')) _ ?_
    unfold visit
    split
    · rename_i hsig
      exact hrotate s.1 p.1 p.2 (hps p List.mem_cons_self) hsig hs
    · exact hs

/-- **The run invariant.** What every rotation of a significant entry keeps holds at the end. -/
theorem sweeps_invariant
    (hrotate : ∀ s i j, i < j → significant tol sqNorm s.mat i j → P s → P (s.rotate i j))
    (k : ℕ) (s : Diagonalization α n) (hs : P s) : P (sweeps tol sqNorm k s).2 := by
  induction k generalizing s with
  | zero => exact hs
  | succ k ih =>
    have hsweep : P (sweep tol sqNorm s).1 :=
      foldl_visit_invariant hrotate (pairs n) (fun _ => mem_pairs.1) (s, false) hs
    unfold sweeps
    split
    · rename_i s' heq
      rw [heq] at hsweep
      exact ih s' hsweep
    · rename_i s' heq
      rw [heq] at hsweep
      exact hsweep

theorem orthonormalColumns_rotate {s : Diagonalization ℝ n} {i j : Fin n} (hij : i < j)
    (hs : s.basis.OrthonormalColumns) : (s.rotate i j).basis.OrthonormalColumns := by
  have hplane := Rotation.plane_orthogonal
    (Rotation.proper_annihilating (s.mat.get i i) (s.mat.get j j) (s.mat.get i j)) hij.ne
  unfold Mat.OrthonormalColumns at hs ⊢
  show (Rotation.columns _ i j s.basis).toMatrixᵀ * (Rotation.columns _ i j s.basis).toMatrix = 1
  rw [Rotation.toMatrix_columns, Matrix.transpose_mul, Matrix.mul_assoc,
    ← Matrix.mul_assoc s.basis.toMatrixᵀ, hs, Matrix.one_mul, hplane]

end Diagonalization

/-! ## The decomposition -/

theorem orthonormalColumns_eigen (A : Mat ℝ n n) (epsZero : ℝ) (maxSweeps : ℕ) :
    (A.eigen epsZero maxSweeps).basis.OrthonormalColumns := by
  exact Diagonalization.sweeps_invariant (P := fun s => s.basis.OrthonormalColumns)
    (fun s i j hij _ hs => Diagonalization.orthonormalColumns_rotate hij hs) maxSweeps _
    Mat.orthonormalColumns_identity

end Spectrahedron
