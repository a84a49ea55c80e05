import Mathlib.Analysis.Matrix.PosDef
import Mathlib.LinearAlgebra.Matrix.Symmetric
import Spectrahedron.Eigen.Lanczos
import Spectrahedron.Exact

/-!
# Kernels as linear algebra

The entries of a vector are a function on its indices, and those of a matrix are a `Matrix`. In
exact arithmetic each kernel is the operation of linear algebra of the same name on these.

**Theorem (`inner_eq_dotProduct`, `get_transform_eq_mulVec`, `Mat.traceProduct_eq_trace`).** The
kernels compute dot products, images of vectors and traces of products.
-/

namespace Spectrahedron

open Scalar Matrix

/-! ## Folds -/

/-- What holds of the start and is kept by every step holds of the end. The property may depend on
the number of steps. -/
theorem foldl_invariant {β : Type*} {n : ℕ} {f : β → Fin n → β} {start : β} (P : ℕ → β → Prop)
    (hstart : P 0 start) (hstep : ∀ (i : Fin n) (b : β), P i b → P (i + 1) (f b i)) :
    P n (Fin.foldl n f start) := by
  induction n with
  | zero => exact hstart
  | succ n ih =>
    rw [Fin.foldl_succ_last]
    exact hstep (Fin.last n) _ (ih fun i b h => hstep i.castSucc b h)

/-- Two loops that are related at the start, and by every step, are related at the end. -/
theorem foldl_related {β γ : Type*} {n : ℕ} {f : β → Fin n → β} {g : γ → Fin n → γ} {start : β}
    {start' : γ} (R : ℕ → β → γ → Prop) (hstart : R 0 start start')
    (hstep : ∀ (i : Fin n) (b : β) (c : γ), R i b c → R (i + 1) (f b i) (g c i)) :
    R n (Fin.foldl n f start) (Fin.foldl n g start') := by
  induction n with
  | zero => exact hstart
  | succ n ih =>
    rw [Fin.foldl_succ_last, Fin.foldl_succ_last]
    exact hstep (Fin.last n) _ _ (ih fun i b c h => hstep i.castSucc b c h)

/-- Two loops with steps that agree where an invariant holds end alike. -/
theorem foldl_congr_of_invariant {β : Type*} {n : ℕ} {f g : β → Fin n → β} {start : β}
    (P : ℕ → β → Prop) (hstart : P 0 start)
    (hstep : ∀ (i : Fin n) (b : β), P i b → P (i + 1) (g b i))
    (hagree : ∀ (i : Fin n) (b : β), P i b → f b i = g b i) :
    Fin.foldl n f start = Fin.foldl n g start := by
  have hrun : Fin.foldl n f start = Fin.foldl n g start ∧ P n (Fin.foldl n g start) := by
    refine foldl_related (fun i b c => b = c ∧ P i c) ⟨rfl, hstart⟩ ?_
    rintro i _ b ⟨rfl, hb⟩
    exact ⟨hagree i _ hb, hstep i _ hb⟩
  exact hrun.1

variable {m n : ℕ}

/-! ## Vectors -/

theorem inner_eq_dotProduct (x y : Vector ℝ n) : inner x y = x.get ⬝ᵥ y.get := inner_eq x y

theorem norm_eq_sqrt (x : Vector ℝ n) : norm x = √(x.get ⬝ᵥ x.get) := by
  rw [← inner_eq_dotProduct]
  rfl

theorem zero_le_norm (x : Vector ℝ n) : 0 ≤ norm x := by
  rw [norm_eq_sqrt]
  exact Real.sqrt_nonneg _

theorem dotProduct_self_nonneg (x : Fin n → ℝ) : 0 ≤ x ⬝ᵥ x :=
  Finset.sum_nonneg fun i _ => mul_self_nonneg (x i)

theorem norm_sq (x : Vector ℝ n) : norm x ^ 2 = x.get ⬝ᵥ x.get := by
  rw [norm_eq_sqrt]
  exact Real.sq_sqrt (dotProduct_self_nonneg _)

theorem get_scale_eq_smul (a : ℝ) (x : Vector ℝ n) : (scale a x).get = a • x.get := by
  funext i
  exact get_scale a x i

theorem get_addScaled_eq_add (a : ℝ) (x y : Vector ℝ n) :
    (addScaled a x y).get = y.get + a • x.get := by
  funext i
  exact get_addScaled a x y i

theorem get_coordinateOver (v : Vector ℝ n) (k : Fin n) :
    (coordinateOver v k).get = Pi.single k 1 := by
  funext i
  rw [coordinateOver, Vec.get_setEntry, get_scale, zero_mul, Pi.single_apply]
  exact if_congr eq_comm rfl rfl

/-- A vector of norm one. -/
def Normalized (v : Vector ℝ n) : Prop := v.get ⬝ᵥ v.get = 1

theorem Normalized.norm_eq_one {v : Vector ℝ n} (h : Normalized v) : norm v = 1 := by
  rw [norm_eq_sqrt, h, Real.sqrt_one]

theorem normalized_scale_recip {v : Vector ℝ n} (h : norm v ≠ 0) :
    Normalized (scale (recip (norm v)) v) := by
  unfold Normalized
  rw [get_scale_eq_smul, smul_dotProduct, dotProduct_smul, ← norm_sq, recip_eq, smul_eq_mul,
    smul_eq_mul]
  field_simp

theorem normalized_coordinateOver (v : Vector ℝ n) (k : Fin n) :
    Normalized (coordinateOver v k) := by
  simp [Normalized, get_coordinateOver]

/-- No entry exceeds the chosen one. -/
theorem get_le_get_argmax (x : Vector ℝ n) (hn : 0 < n) (k : Fin n) :
    x.get k ≤ x.get (argmax x hn) := by
  have hscan : ∀ i : Fin n, i.val < n → x.get i ≤ x.get (argmax x hn) := by
    unfold argmax
    refine foldl_invariant (fun j best => ∀ i : Fin n, i.val < j → x.get i ≤ x.get best)
      (fun i hi => absurd hi (Nat.not_lt_zero _)) fun j best hbest i hi => ?_
    rcases Nat.lt_succ_iff_lt_or_eq.1 hi with hlt | heq
    · split
      · rename_i hbetter
        exact (hbest i hlt).trans hbetter.le
      · exact hbest i hlt
    · obtain rfl : i = j := Fin.ext heq
      split
      · exact le_rfl
      · rename_i hworse
        exact not_lt.1 hworse
  exact hscan k k.isLt

/-! ## Matrices -/

namespace Mat

/-- The positions of the flat form, as pairs of a row and a column. -/
def indexEquiv : Fin m × Fin n ≃ Fin (m * n) where
  toFun p := index p.1 p.2
  invFun k := (rowOf k, colOf k)
  left_inv p := Prod.ext (rowOf_index p.1 p.2) (colOf_index p.1 p.2)
  right_inv := index_rowOf_colOf

/-- The entries as a function of row and column. -/
def toMatrix (A : Mat ℝ m n) : Matrix (Fin m) (Fin n) ℝ := Matrix.of A.get

@[simp] theorem toMatrix_apply (A : Mat ℝ m n) (r : Fin m) (c : Fin n) :
    A.toMatrix r c = A.get r c := rfl

theorem toMatrix_injective : Function.Injective (toMatrix : Mat ℝ m n → _) := by
  intro A B h
  exact ext_get fun r c => congrFun (congrFun h r) c

theorem toMatrix_scale (a : ℝ) (A : Mat ℝ m n) : (A.scale a).toMatrix = a • A.toMatrix := by
  ext r c
  simp

theorem toMatrix_addRankOne (a : ℝ) (x : Vector ℝ n) (A : Mat ℝ n n) :
    (A.addRankOne a x).toMatrix = a • vecMulVec x.get x.get + A.toMatrix := by
  ext r c
  simp [vecMulVec_apply, mul_assoc]

@[simp] theorem toMatrix_identity : (identity ℝ n).toMatrix = 1 := by
  ext r c
  simp [Matrix.one_apply]

theorem get_col_eq (A : Mat ℝ m n) (c : Fin n) : (A.col c).get = A.toMatrix.col c := by
  funext r
  simp

theorem get_transform_eq_mulVec (A : Mat ℝ m n) (x : Vector ℝ n) (y : Vector ℝ m) :
    (A.transform 1 x 0 y).get = A.toMatrix *ᵥ x.get := by
  funext r
  rw [get_transform, sum_eq, one_mul, zero_mul, add_zero]
  rfl

theorem trace_eq_trace (A : Mat ℝ n n) : A.trace = A.toMatrix.trace := A.trace_eq

theorem traceProduct_eq_trace (A B : Mat ℝ n n) :
    A.traceProduct B = (A.toMatrix * B.toMatrix).trace := by
  rw [traceProduct_eq, Finset.sum_comm]
  rfl

theorem zero_le_norm (A : Mat ℝ m n) : 0 ≤ A.norm := Spectrahedron.zero_le_norm A.data

/-! ## Orthonormal columns -/

/-- The columns are orthonormal. -/
def OrthonormalColumns (B : Mat ℝ m n) : Prop := B.toMatrixᵀ * B.toMatrix = 1

theorem orthonormalColumns_identity : (identity ℝ n).OrthonormalColumns := by
  unfold OrthonormalColumns
  rw [toMatrix_identity, Matrix.transpose_one, Matrix.one_mul]

theorem OrthonormalColumns.dotProduct_col {B : Mat ℝ m n} (h : B.OrthonormalColumns)
    (i j : Fin n) : (B.col i).get ⬝ᵥ (B.col j).get = if i = j then 1 else 0 := by
  have hij := congrFun (congrFun h i) j
  rw [Matrix.one_apply] at hij
  rw [B.get_col_eq, B.get_col_eq]
  exact hij

theorem OrthonormalColumns.normalized_col {B : Mat ℝ m n} (h : B.OrthonormalColumns)
    (i : Fin n) : Normalized (B.col i) := by
  rw [Normalized, h.dotProduct_col, if_pos rfl]

/-- A matrix with orthonormal columns keeps dot products. -/
theorem OrthonormalColumns.dotProduct_mulVec {B : Mat ℝ m n} (h : B.OrthonormalColumns)
    (x y : Fin n → ℝ) : (B.toMatrix *ᵥ x) ⬝ᵥ (B.toMatrix *ᵥ y) = x ⬝ᵥ y := by
  rw [Matrix.dotProduct_mulVec, Matrix.vecMul_mulVec, h, Matrix.vecMul_one]

end Mat

end Spectrahedron
