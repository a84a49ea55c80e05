import Mathlib.LinearAlgebra.Matrix.IsDiag
import Spectrahedron.Proofs.Krylov
import Spectrahedron.Proofs.Overwriting
import Spectrahedron.Proofs.Rayleigh

/-!
# The tridiagonal matrix of a Krylov basis

The image of a basis vector less its components along the basis so far is, up to a factor, the next
basis vector, unless its norm counts as zero. The factor is the coupling, and zero if the norm
counts as zero. A step leaves what the steps before it have written, so this holds of all columns at
the end.

For a symmetric matrix the compression to the basis is symmetric, so the entries below the diagonal
determine it: each is an entry of the tridiagonal matrix, or the latter has a zero in its place and
it is small.

**Theorem (`recurs_build`, `abs_compress_sub_le`, `norm_tridiagonal_le`).** The recurrence, and that
the tridiagonal matrix is the compression up to small entries and of no larger norm than the matrix.
-/

namespace Spectrahedron

open Scalar Matrix

variable {n m : ℕ}

namespace Krylov

/-! ## The recurrence -/

/-- The image of a column less its components along the columns up to it. -/
noncomputable def rest (G : Mat ℝ n n) (B : Mat ℝ n m) (i : Fin m) : Vector ℝ n :=
  project B (i + 1) i.isLt (G.transform 1 (B.col i) 0 (B.col i))

/-- The entries of a column of the tridiagonal matrix, and the next column of the basis, are those
of the recurrence. -/
structure Recurs (G : Mat ℝ n n) (tiny : ℝ) (K : Krylov ℝ n m) (i : Fin m) : Prop where
  diag : K.diag.get i = G.quadratic (K.basis.col i)
  coupling : norm (rest G K.basis i) ≤ tiny ∧ K.coupling.get i = 0 ∨
    tiny < norm (rest G K.basis i) ∧ K.coupling.get i = norm (rest G K.basis i) ∧
      ∀ h : i.val + 1 < m, (rest G K.basis i).get
        = norm (rest G K.basis i) • (K.basis.col ⟨i.val + 1, h⟩).get

theorem rest_congr {G : Mat ℝ n n} {B B' : Mat ℝ n m} {i : Fin m}
    (hB : ∀ c : Fin m, c.val < i.val + 1 → B.col c = B'.col c) : rest G B i = rest G B' i := by
  unfold rest
  rw [project_congr hB, hB i (Nat.lt_succ_self _)]

variable {G : Mat ℝ n n} {tiny : ℝ} {K K' : Krylov ℝ n m} {j : Fin m}

/-- A step leaves what the steps before it have written. -/
theorem agreeUpTo_extend (K : Krylov ℝ n m) (j : Fin m) (G : Mat ℝ n n) (tiny : ℝ)
    (first : Fin n) : AgreeUpTo j K (K.extend G tiny first j) := by
  have hentry : ∀ (x : Vector ℝ m) (a : ℝ) (i : Fin m), i.val < j.val →
      x.get i = (Vec.setEntry x j a).get i := by
    intro x a i hi
    rw [Vec.get_setEntry, if_neg fun he => hi.ne' (congrArg Fin.val he)]
  refine ⟨fun c hc => (col_extend_of_le (Nat.lt_succ_iff.1 hc)).symm, ?_, ?_⟩
  · rw [diag_extend]
    exact hentry _ _
  · rw [coupling_extend]
    exact hentry _ _

theorem Recurs.congr {count : ℕ} (h : AgreeUpTo count K K') {i : Fin m} (hi : i.val < count)
    (hK : Recurs G tiny K i) : Recurs G tiny K' i := by
  have hcol : K.basis.col i = K'.basis.col i := h.basis i (by omega)
  have hrest : rest G K.basis i = rest G K'.basis i :=
    rest_congr fun c hc => h.basis c (by omega)
  refine ⟨?_, ?_⟩
  · rw [← h.diag i hi, ← hcol]
    exact hK.diag
  · rw [← h.coupling i hi, ← hrest]
    refine hK.coupling.imp_right fun ⟨hlarge, hcoupling, hnext⟩ =>
      ⟨hlarge, hcoupling, fun hroom => ?_⟩
    rw [hnext hroom, h.basis ⟨i.val + 1, hroom⟩ (Nat.succ_lt_succ hi)]

theorem imageRest_eq_rest (hK : K.basis.OrthonormalUpTo (j + 1)) :
    K.imageRest G j = rest G K.basis j := by
  unfold imageRest
  rw [orthogonalize_eq_project hK, Mat.transform_zero_congr 1 G _ K.image (K.basis.col j)]
  rfl

/-- A step writes its own entries as the recurrence has them. -/
theorem recurs_extend (htiny : 0 ≤ tiny) (hK : K.basis.OrthonormalUpTo (j + 1)) (first : Fin n) :
    Recurs G tiny (K.extend G tiny first j) j := by
  have hcol : (K.extend G tiny first j).basis.col j = K.basis.col j := col_extend_of_le le_rfl
  have hrest : rest G (K.extend G tiny first j).basis j = K.imageRest G j := by
    rw [imageRest_eq_rest hK]
    exact rest_congr fun c hc => col_extend_of_le (Nat.lt_succ_iff.1 hc)
  have hcoupling : (K.extend G tiny first j).coupling.get j
      = if tiny < norm (K.imageRest G j) then norm (K.imageRest G j) else 0 := by
    rw [coupling_extend, Vec.get_setEntry, if_pos rfl]
  refine ⟨?_, ?_⟩
  · rw [hcol, diag_extend, Vec.get_setEntry, if_pos rfl, inner_eq_dotProduct,
      Mat.get_transform_eq_mulVec, dotProduct_comm]
    rfl
  · rw [hrest, hcoupling]
    by_cases hlarge : tiny < norm (K.imageRest G j)
    · rw [if_pos hlarge]
      refine Or.inr ⟨hlarge, rfl, fun hroom => ?_⟩
      rw [basis_extend_of_lt hroom hlarge, Mat.col_setCol_self, get_scale_eq_smul, smul_smul,
        recip_eq, mul_inv_cancel₀ (htiny.trans_lt hlarge).ne', one_smul]
    · rw [if_neg hlarge]
      exact Or.inl ⟨not_lt.1 hlarge, rfl⟩

/-- Steps leave what the steps before them have written. -/
theorem agreeUpTo_buildUpTo (G : Mat ℝ n n) (tiny : ℝ) (hm : 0 < m) (hmn : m ≤ n) (v : Vector ℝ n)
    (K : Krylov ℝ n m) {i k : ℕ} (hik : i ≤ k) (hk : k ≤ m) :
    AgreeUpTo i (K.buildUpTo G tiny hm hmn v i (hik.trans hk))
      (K.buildUpTo G tiny hm hmn v k hk) := by
  induction k, hik using Nat.le_induction with
  | base => exact ⟨fun _ _ => rfl, fun _ _ => rfl, fun _ _ => rfl⟩
  | succ k hik ih =>
    refine (ih (Nat.le_of_succ_le hk)).trans_of_le hik ?_
    rw [buildUpTo_succ G tiny hm hmn v K ⟨k, hk⟩]
    exact agreeUpTo_extend _ ⟨k, hk⟩ G tiny _

theorem recurs_build (htiny : 0 ≤ tiny) (hm : 0 < m) (hmn : m ≤ n) {v : Vector ℝ n}
    (hv : Normalized v) (K : Krylov ℝ n m) (i : Fin m) :
    Recurs G tiny (K.build G tiny hm hmn v) i := by
  have hstep : Recurs G tiny (K.buildUpTo G tiny hm hmn v (i + 1) i.isLt) i := by
    rw [buildUpTo_succ]
    exact recurs_extend htiny (orthonormalUpTo_buildUpTo htiny hm hmn hv K i i.isLt.le) _
  exact hstep.congr (agreeUpTo_buildUpTo G tiny hm hmn v K i.isLt le_rfl) (Nat.lt_succ_self _)

theorem col_zero_build (hm : 0 < m) (hmn : m ≤ n) (v : Vector ℝ n) (K : Krylov ℝ n m) :
    (K.build G tiny hm hmn v).basis.col ⟨0, hm⟩ = v := by
  have hlater := agreeUpTo_buildUpTo G tiny hm hmn v K (Nat.zero_le m) le_rfl
  exact (hlater.basis ⟨0, hm⟩ Nat.one_pos).symm.trans (K.basis.col_setCol_self ⟨0, hm⟩ v)

/-- The column that a step makes is a column of the whole basis. -/
theorem col_succ_build (hm : 0 < m) (hmn : m ≤ n) (v : Vector ℝ n) (K : Krylov ℝ n m) (j : Fin m)
    (hj : j.val + 1 < m) : (K.build G tiny hm hmn v).basis.col ⟨j.val + 1, hj⟩
      = ((K.buildUpTo G tiny hm hmn v j j.isLt.le).extend G tiny
          ⟨0, dim_pos_of_le hm hmn⟩ j).basis.col ⟨j.val + 1, hj⟩ := by
  have hlater := agreeUpTo_buildUpTo G tiny hm hmn v K hj.le le_rfl
  rw [← buildUpTo_succ]
  exact (hlater.basis ⟨j.val + 1, hj⟩ (Nat.lt_succ_self _)).symm

/-- An eigenvector leaves nothing. -/
theorem norm_rest_eq_zero {B : Mat ℝ n m} {i : Fin m} (hB : B.OrthonormalUpTo (i + 1)) {μ : ℝ}
    (h : G.toMatrix *ᵥ (B.col i).get = μ • (B.col i).get) : norm (rest G B i) = 0 := by
  have hproject := get_project hB i.isLt (G.transform 1 (B.col i) 0 (B.col i))
  rw [Mat.get_transform_eq_mulVec, h, Finset.sum_eq_single (Fin.last i.val)] at hproject
  · have hlast : (Fin.last i.val).castLE i.isLt = i := rfl
    rw [hlast, smul_dotProduct, hB i i (Nat.lt_succ_self _) (Nat.lt_succ_self _), if_pos rfl,
      smul_eq_mul, mul_one, sub_self] at hproject
    rw [norm_eq_sqrt, rest, hproject, dotProduct_zero, Real.sqrt_zero]
  · intro l _ hl
    have hne : i ≠ l.castLE i.isLt := by
      intro he
      have hval : i.val = l.val := congrArg Fin.val he
      exact hl (Fin.ext hval.symm)
    rw [smul_dotProduct, hB i _ (Nat.lt_succ_self _) l.isLt, if_neg hne, smul_zero, zero_smul]
  · exact fun hnot => absurd (Finset.mem_univ _) hnot

theorem Recurs.coupling_eq_zero (htiny : 0 ≤ tiny) (hB : K.basis.OrthonormalColumns) {i : Fin m}
    (hK : Recurs G tiny K i) {μ : ℝ}
    (h : G.toMatrix *ᵥ (K.basis.col i).get = μ • (K.basis.col i).get) : K.coupling.get i = 0 := by
  rcases hK.coupling with ⟨-, hzero⟩ | ⟨hlarge, -, -⟩
  · exact hzero
  · exact absurd (hlarge.trans_eq (norm_rest_eq_zero (hB.upTo _) h)) (not_lt.2 htiny)

/-! ## The compression to the basis -/

theorem get_tridiagonal_self (K : Krylov ℝ n m) (i : Fin m) :
    K.tridiagonal.get i i = K.diag.get i := by
  rw [tridiagonal, Mat.get_ofFn, if_pos rfl]

theorem get_tridiagonal_of_lt (K : Krylov ℝ n m) {i j : Fin m} (hij : j < i) :
    K.tridiagonal.get i j = if i.val = j.val + 1 then K.coupling.get j else 0 := by
  have hval : j.val < i.val := hij
  rw [tridiagonal, Mat.get_ofFn, if_neg hij.ne', if_neg (by omega : ¬j.val = i.val + 1), zero_mul]

theorem get_tridiagonal_comm (K : Krylov ℝ n m) (i j : Fin m) :
    K.tridiagonal.get i j = K.tridiagonal.get j i := by
  wlog hij : j < i generalizing i j with hwlog
  · rcases eq_or_lt_of_le (not_lt.1 hij) with rfl | hlt
    · rfl
    · exact (hwlog j i hlt).symm
  have hval : j.val < i.val := hij
  rw [get_tridiagonal_of_lt K hij, tridiagonal, Mat.get_ofFn, if_neg hij.ne,
    if_neg (by omega : ¬j.val = i.val + 1), zero_mul]

theorem isSymm_tridiagonal (K : Krylov ℝ n m) : K.tridiagonal.toMatrix.IsSymm := by
  ext i j
  exact K.get_tridiagonal_comm j i

theorem isDiag_tridiagonal (h : ∀ i : Fin m, i.val + 1 < m → K.coupling.get i = 0) :
    K.tridiagonal.toMatrix.IsDiag := by
  have hbelow : ∀ i j : Fin m, j < i → K.tridiagonal.get i j = 0 := by
    intro i j hij
    have hroom : j.val + 1 < m := (Nat.succ_le_of_lt hij).trans_lt i.isLt
    rw [get_tridiagonal_of_lt K hij, h j hroom, ite_self]
  intro i j hij
  rw [Mat.toMatrix_apply]
  rcases lt_or_gt_of_ne hij with hlt | hlt
  · rw [get_tridiagonal_comm]
    exact hbelow j i hlt
  · exact hbelow i j hlt

section Compression

variable (hB : K.basis.OrthonormalColumns) (hG : G.toMatrix.IsSymm)
  (hK : ∀ i, Recurs G tiny K i)

include hB

/-- Of the image of a column, later columns see what is left of it. -/
theorem compress_eq_dotProduct_rest {i j : Fin m} (hij : j < i) :
    K.basis.compress G i j = (K.basis.col i).get ⬝ᵥ (rest G K.basis j).get := by
  have hproject := get_project (hB.upTo (j + 1)) j.isLt
    (G.transform 1 (K.basis.col j) 0 (K.basis.col j))
  rw [Mat.compress_apply, rest, hproject, dotProduct_sub, dotProduct_sum,
    Mat.get_transform_eq_mulVec, eq_comm, sub_eq_self]
  refine Finset.sum_eq_zero fun l _ => ?_
  have hl : i ≠ l.castLE j.isLt := by
    intro he
    have hval : i.val = l.val := congrArg Fin.val he
    have hlt := l.isLt
    have hji : j.val < i.val := hij
    omega
  rw [dotProduct_smul, hB.dotProduct_col, if_neg hl, smul_zero]

include hK

theorem compress_eq_or_of_lt {i j : Fin m} (hij : j < i) :
    K.basis.compress G i j = K.tridiagonal.get i j ∨
      K.tridiagonal.get i j = 0 ∧ |K.basis.compress G i j| ≤ tiny := by
  have hval : j.val < i.val := hij
  rw [compress_eq_dotProduct_rest hB hij, get_tridiagonal_of_lt K hij]
  rcases (hK j).coupling with ⟨hsmall, hzero⟩ | ⟨-, hcoupling, hnext⟩
  · refine Or.inr ⟨?_, (abs_dotProduct_le_norm (hB.normalized_col i) _).trans hsmall⟩
    rw [hzero, ite_self]
  · have hroom : j.val + 1 < m := by omega
    refine Or.inl ?_
    rw [hnext hroom, dotProduct_smul, hB.dotProduct_col, hcoupling, smul_eq_mul, mul_ite, mul_one,
      mul_zero]
    exact if_congr Fin.ext_iff rfl rfl

include hG

/-- Each entry of the compression is that of the tridiagonal matrix, or has been dropped. -/
theorem compress_eq_or (i j : Fin m) : K.basis.compress G i j = K.tridiagonal.get i j ∨
    K.tridiagonal.get i j = 0 ∧ |K.basis.compress G i j| ≤ tiny := by
  rcases lt_trichotomy j i with hlt | rfl | hlt
  · exact compress_eq_or_of_lt hB hK hlt
  · refine Or.inl ?_
    rw [get_tridiagonal_self, (hK j).diag, Mat.compress_apply]
    rfl
  · rw [← (K.basis.isSymm_compress hG).apply i j, get_tridiagonal_comm K i j]
    exact compress_eq_or_of_lt hB hK hlt

/-- The tridiagonal matrix is the compression up to small entries. -/
theorem abs_compress_sub_le (htiny : 0 ≤ tiny) (i j : Fin m) :
    |(K.basis.compress G - K.tridiagonal.toMatrix) i j| ≤ tiny := by
  rw [Matrix.sub_apply, Mat.toMatrix_apply]
  rcases compress_eq_or hB hG hK i j with heq | ⟨hzero, hsmall⟩
  · rw [heq, sub_self, abs_zero]
    exact htiny
  · rw [hzero, sub_zero]
    exact hsmall

theorem norm_tridiagonal_le : K.tridiagonal.norm ≤ G.norm := by
  refine le_of_sq_le_sq ?_ G.zero_le_norm
  calc K.tridiagonal.norm ^ 2 = ∑ i, ∑ j, K.tridiagonal.get i j ^ 2 := by
        rw [Mat.norm_sq_eq_frobenius]
        simp only [Mat.frobenius, sq]
    _ ≤ ∑ i, ∑ j, K.basis.compress G i j ^ 2 := by
        refine Finset.sum_le_sum fun i _ => Finset.sum_le_sum fun j _ => ?_
        rcases compress_eq_or hB hG hK i j with heq | ⟨hzero, -⟩
        · rw [heq]
        · rw [hzero, zero_pow two_ne_zero]
          exact sq_nonneg _
    _ ≤ G.norm ^ 2 := hB.sum_sq_compress_le G

end Compression

end Krylov

end Spectrahedron
