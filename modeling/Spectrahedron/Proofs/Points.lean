import Mathlib.Analysis.InnerProductSpace.Positive
import Mathlib.Analysis.Matrix.Order
import Spectrahedron.FrankWolfe
import Spectrahedron.Proofs.Linear

/-!
# Points of the spectrahedron

The spectrahedron is the set of the symmetric positive semidefinite matrices with trace one. The
solver starts in it, and a step towards `v vᵀ`, for a unit vector `v`, does not leave it. On it, the
inner product with a symmetric matrix is at most the largest eigenvalue of that matrix.

**Theorem (`startPoint_mem`, `move_mem`, `frobenius_le_topEigenvalue`).** These are the three facts.
-/

namespace Spectrahedron

open Scalar Matrix

variable {n : ℕ}

/-! ## Matrices as a vector space -/

namespace Mat

variable {m : ℕ}

/-- Matrices are determined by their entries. -/
def entriesEquiv : Mat ℝ m n ≃ Matrix (Fin m) (Fin n) ℝ where
  toFun := toMatrix
  invFun A := ofFn fun r c => A r c
  left_inv A := ext_get fun r c => get_ofFn _ r c
  right_inv A := by
    ext r c
    exact get_ofFn _ r c

noncomputable instance instAddCommGroup : AddCommGroup (Mat ℝ m n) := entriesEquiv.addCommGroup

noncomputable instance instModule : Module ℝ (Mat ℝ m n) := entriesEquiv.module ℝ

theorem toMatrix_add (A B : Mat ℝ m n) : (A + B).toMatrix = A.toMatrix + B.toMatrix :=
  entriesEquiv.apply_symm_apply _

theorem toMatrix_sub (A B : Mat ℝ m n) : (A - B).toMatrix = A.toMatrix - B.toMatrix :=
  entriesEquiv.apply_symm_apply _

theorem toMatrix_smul (a : ℝ) (A : Mat ℝ m n) : (a • A).toMatrix = a • A.toMatrix :=
  entriesEquiv.apply_symm_apply _

theorem get_add (A B : Mat ℝ m n) (r : Fin m) (c : Fin n) :
    (A + B).get r c = A.get r c + B.get r c := congrFun₂ (toMatrix_add A B) r c

theorem get_sub (A B : Mat ℝ m n) (r : Fin m) (c : Fin n) :
    (A - B).get r c = A.get r c - B.get r c := congrFun₂ (toMatrix_sub A B) r c

theorem get_smul (a : ℝ) (A : Mat ℝ m n) (r : Fin m) (c : Fin n) :
    (a • A).get r c = a * A.get r c := congrFun₂ (toMatrix_smul a A) r c

/-- The matrix `v vᵀ`. -/
def rankOne (v : Vector ℝ n) : Mat ℝ n n := ofFn fun r c => v.get r * v.get c

theorem toMatrix_rankOne (v : Vector ℝ n) : (rankOne v).toMatrix = vecMulVec v.get v.get := by
  ext r c
  exact get_ofFn _ r c

/-- The inner product `∑ A_rc B_rc`. -/
def frobenius (A B : Mat ℝ m n) : ℝ := ∑ r, ∑ c, A.get r c * B.get r c

theorem frobenius_eq_trace (A B : Mat ℝ m n) :
    A.frobenius B = (A.toMatrix * B.toMatrixᵀ).trace := rfl

theorem frobenius_sub (A B C : Mat ℝ m n) :
    A.frobenius (B - C) = A.frobenius B - A.frobenius C := by
  simp only [frobenius_eq_trace, toMatrix_sub, transpose_sub, Matrix.mul_sub, trace_sub]

/-- The quadratic form `vᵀ A v`. -/
def quadratic (A : Mat ℝ n n) (v : Vector ℝ n) : ℝ := v.get ⬝ᵥ (A.toMatrix *ᵥ v.get)

theorem frobenius_rankOne (A : Mat ℝ n n) (v : Vector ℝ n) :
    A.frobenius (rankOne v) = A.quadratic v := by
  rw [frobenius_eq_trace, toMatrix_rankOne, transpose_vecMulVec, mul_vecMulVec, trace_vecMulVec,
    dotProduct_comm]
  rfl

theorem trace_transpose_mul (A : Matrix (Fin n) (Fin n) ℝ) {D : Mat ℝ n n}
    (hD : D.toMatrix.IsSymm) : (Aᵀ * D.toMatrix).trace = (A * D.toMatrix).trace := by
  rw [← trace_transpose, transpose_mul, transpose_transpose, hD, trace_mul_comm]

theorem toMatrix_symmetricPart (G : Mat ℝ n n) :
    (FrankWolfe.symmetricPart G).toMatrix = (1 / 2 : ℝ) • (G.toMatrix + G.toMatrixᵀ) := by
  ext r c
  simp only [FrankWolfe.symmetricPart, toMatrix_apply, get_ofFn, two_eq, Matrix.smul_apply,
    Matrix.add_apply, transpose_apply, smul_eq_mul]
  rcases lt_trichotomy r c with h | rfl | h
  · rw [if_pos h]
    ring
  · rw [if_neg (lt_irrefl r), if_neg (lt_irrefl r)]
    ring
  · rw [if_neg h.not_gt, if_pos h]
    ring

/-- The inner product with a symmetric matrix sees the symmetric part only. -/
theorem frobenius_symmetricPart (G : Mat ℝ n n) {D : Mat ℝ n n} (hD : D.toMatrix.IsSymm) :
    (FrankWolfe.symmetricPart G).frobenius D = G.frobenius D := by
  rw [frobenius_eq_trace, frobenius_eq_trace, hD, toMatrix_symmetricPart, smul_mul,
    Matrix.add_mul, trace_smul, trace_add, trace_transpose_mul _ hD, smul_eq_mul]
  ring

theorem isSymm_symmetricPart (G : Mat ℝ n n) :
    (FrankWolfe.symmetricPart G).toMatrix.IsSymm := by
  rw [toMatrix_symmetricPart]
  exact (isSymm_add_transpose_self G.toMatrix).smul _

end Mat

/-! ## Symmetric gradients -/

namespace FrankWolfe

theorem asymmetry_eq_zero {g : Mat ℝ n n} (hg : g.toMatrix.IsSymm) : asymmetry g = 0 := by
  unfold asymmetry
  refine foldl_invariant (fun _ s => s = 0) rfl fun c s hs => ?_
  refine foldl_invariant (fun _ s => s = 0) hs fun r s hs => ?_
  have hrc : g.get r c = g.get c r := hg.apply c r
  split
  · rw [hs, hrc, sub_self, larger_eq]
    exact max_eq_left (abs_eq_zero.2 rfl).le
  · exact hs

theorem symmetricPart_eq_self {g : Mat ℝ n n} (hg : g.toMatrix.IsSymm) : symmetricPart g = g := by
  refine Mat.ext_get fun r c => ?_
  have hrc : g.get r c = g.get c r := hg.apply c r
  simp only [symmetricPart, Mat.get_ofFn, two_eq, ← hrc]
  split
  · ring
  · split
    · ring
    · rfl

/-- Every gradient is finite, so the asymmetry alone decides. -/
theorem symmetrize_eq_ite (epsZero epsSym : ℝ) (g : Mat ℝ n n) :
    symmetrize epsZero epsSym g = if epsSym * larger g.norm epsZero < asymmetry g then
      .error (.asymmetricGradient, .asymmetricGradient (asymmetry g) epsSym g.norm)
    else .ok (symmetricPart g) := by
  have hfinite : g.data.all isFinite = true := by
    rw [Vector.all_eq_true]
    intros
    rfl
  exact if_pos hfinite

/-- A gradient that is symmetric is taken as it is. -/
theorem symmetrize_of_isSymm {g : Mat ℝ n n} (hg : g.toMatrix.IsSymm) {epsSym : ℝ}
    (heps : 0 ≤ epsSym) (epsZero : ℝ) : symmetrize epsZero epsSym g = .ok g := by
  have hnorm : 0 ≤ epsSym * larger g.norm epsZero := by
    rw [larger_eq]
    exact mul_nonneg heps (le_max_of_le_left g.zero_le_norm)
  rw [symmetrize_eq_ite, asymmetry_eq_zero hg, if_neg (not_lt.2 hnorm), symmetricPart_eq_self hg]

theorem eq_symmetricPart_of_symmetrize_ok {epsZero epsSym : ℝ} {g G : Mat ℝ n n}
    (h : symmetrize epsZero epsSym g = .ok G) : G = symmetricPart g := by
  rw [symmetrize_eq_ite] at h
  split at h
  · cases h
  · cases h
    rfl

end FrankWolfe

/-! ## The spectrahedron -/

/-- The symmetric positive semidefinite matrices with trace one. -/
def spectrahedron (n : ℕ) : Set (Mat ℝ n n) := {X | X.toMatrix.PosSemidef ∧ X.trace = 1}

theorem isSymm_of_mem {X : Mat ℝ n n} (hX : X ∈ spectrahedron n) : X.toMatrix.IsSymm :=
  isHermitian_iff_isSymm.1 hX.1.isHermitian

theorem posSemidef_addRankOne {X : Mat ℝ n n} (hX : X.toMatrix.PosSemidef) {a : ℝ} (ha : 0 ≤ a)
    (v : Vector ℝ n) : (X.addRankOne a v).toMatrix.PosSemidef := by
  rw [Mat.toMatrix_addRankOne]
  exact ((posSemidef_vecMulVec_self_star v.get).smul ha).add hX

theorem trace_addRankOne (X : Mat ℝ n n) (a : ℝ) (v : Vector ℝ n) :
    (X.addRankOne a v).trace = a * (v.get ⬝ᵥ v.get) + X.trace := by
  rw [Mat.trace_eq_trace, Mat.toMatrix_addRankOne, trace_add, trace_smul, trace_vecMulVec,
    smul_eq_mul, Mat.trace_eq_trace]

theorem posSemidef_scale {X : Mat ℝ n n} (hX : X.toMatrix.PosSemidef) {a : ℝ} (ha : 0 ≤ a) :
    (X.scale a).toMatrix.PosSemidef := by
  rw [Mat.toMatrix_scale]
  exact hX.smul ha

theorem trace_scale (X : Mat ℝ n n) (a : ℝ) : (X.scale a).trace = a * X.trace := by
  rw [Mat.trace_eq_trace, Mat.toMatrix_scale, trace_smul, smul_eq_mul, Mat.trace_eq_trace]

theorem rankOne_mem {v : Vector ℝ n} (hv : Normalized v) : Mat.rankOne v ∈ spectrahedron n := by
  refine ⟨?_, ?_⟩
  · rw [Mat.toMatrix_rankOne]
    exact posSemidef_vecMulVec_self_star v.get
  · rw [Mat.trace_eq_trace, Mat.toMatrix_rankOne, trace_vecMulVec]
    exact hv

/-! ## Starting points and steps -/

namespace FrankWolfe

/-- The square norm that comes with the starting vector is its square norm. It is positive when only
what is not negative is taken for zero. -/
theorem startVector_spec (epsZero : ℝ) (old : Vector ℝ n) (random : Xoshiro) :
    let s := (startVector epsZero old random).1
    s.2 = s.1.get ⬝ᵥ s.1.get ∧ (0 ≤ epsZero → 0 < n → 0 < s.2) := by
  unfold startVector
  dsimp only
  split
  · refine ⟨?_, fun _ hn => Nat.cast_pos.2 hn⟩
    simp [dotProduct]
  · rename_i hlarge
    refine ⟨inner_eq_dotProduct _ _, fun heps _ => heps.trans_lt (not_le.1 hlarge)⟩

theorem posSemidef_startPoint {v : Vector ℝ n} {sq : ℝ} (hsq : 0 ≤ sq) (old : Mat ℝ n n) :
    (startPoint v sq old).toMatrix.PosSemidef := by
  refine posSemidef_addRankOne ?_ ?_ v
  · rw [Mat.toMatrix_scale, zero_smul]
    exact PosSemidef.zero
  · rw [recip_eq]
    exact inv_nonneg.2 hsq

theorem startPoint_mem {v : Vector ℝ n} {sq : ℝ} (hv : sq = v.get ⬝ᵥ v.get) (hsq : 0 < sq)
    (old : Mat ℝ n n) : startPoint v sq old ∈ spectrahedron n := by
  refine ⟨posSemidef_startPoint hsq.le old, ?_⟩
  unfold startPoint
  rw [trace_addRankOne, trace_scale, zero_mul, add_zero, recip_eq, ← hv, inv_mul_cancel₀ hsq.ne']

theorem stepSize_nonneg (k : ℕ) : 0 ≤ (stepSize k : ℝ) := by
  rw [stepSize, smaller_eq, two_eq]
  exact le_min zero_le_one (div_nonneg zero_le_two (Nat.cast_nonneg _))

theorem stepSize_le_one (k : ℕ) : (stepSize k : ℝ) ≤ 1 := by
  rw [stepSize, smaller_eq]
  exact min_le_left _ _

/-- The steps of the first two iterations are full ones. -/
theorem stepSize_eq {k : ℕ} (hk : 0 < k) : (stepSize k : ℝ) = 2 / (k + 1) := by
  have hk1 : (1 : ℝ) ≤ k := Nat.one_le_cast.2 hk
  rw [stepSize, smaller_eq, two_eq, Nat.cast_succ]
  exact min_eq_right ((div_le_one (by linarith)).2 (by linarith))

theorem posSemidef_move {X : Mat ℝ n n} (hX : X.toMatrix.PosSemidef) {a : ℝ} (h0 : 0 ≤ a)
    (h1 : a ≤ 1) (v : Vector ℝ n) : (move a v X).toMatrix.PosSemidef :=
  posSemidef_addRankOne (posSemidef_scale hX (sub_nonneg.2 h1)) h0 v

theorem move_mem {X : Mat ℝ n n} (hX : X ∈ spectrahedron n) {a : ℝ} (h0 : 0 ≤ a) (h1 : a ≤ 1)
    {v : Vector ℝ n} (hv : Normalized v) : move a v X ∈ spectrahedron n := by
  refine ⟨posSemidef_move hX.1 h0 h1 v, ?_⟩
  unfold move
  rw [trace_addRankOne, trace_scale, hX.2, hv]
  ring

/-- A step in the direction of a point of the spectrahedron. -/
theorem move_eq (a : ℝ) (v : Vector ℝ n) (X : Mat ℝ n n) :
    move a v X = X + a • (Mat.rankOne v - X) := by
  refine Mat.toMatrix_injective ?_
  unfold move
  rw [Mat.toMatrix_addRankOne, Mat.toMatrix_scale, Mat.toMatrix_add, Mat.toMatrix_smul,
    Mat.toMatrix_sub, Mat.toMatrix_rankOne]
  module

end FrankWolfe

/-! ## The largest eigenvalue -/

/-- The largest eigenvalue of a symmetric matrix. -/
noncomputable def Mat.topEigenvalue (G : Mat ℝ n n) : ℝ := sSup (spectrum ℝ G.toMatrix)

theorem isGreatest_topEigenvalue (hn : 0 < n) {G : Mat ℝ n n} (hG : G.toMatrix.IsSymm) :
    IsGreatest (spectrum ℝ G.toMatrix) G.topEigenvalue := by
  have hH : G.toMatrix.IsHermitian := isHermitian_iff_isSymm.2 hG
  have hfinite : (spectrum ℝ G.toMatrix).Finite := G.toMatrix.finite_real_spectrum
  have hnonempty : (spectrum ℝ G.toMatrix).Nonempty := by
    rw [hH.spectrum_real_eq_range_eigenvalues]
    exact ⟨_, Set.mem_range_self (⟨0, hn⟩ : Fin n)⟩
  exact ⟨hnonempty.csSup_mem hfinite, fun b hb => le_csSup hfinite.bddAbove hb⟩

theorem posSemidef_topEigenvalue_sub {G : Mat ℝ n n} (hG : G.toMatrix.IsSymm) :
    (G.topEigenvalue • (1 : Matrix (Fin n) (Fin n) ℝ) - G.toMatrix).PosSemidef := by
  have hH : G.toMatrix.IsHermitian := isHermitian_iff_isSymm.2 hG
  have hbdd : BddAbove (spectrum ℝ G.toMatrix) := G.toMatrix.finite_real_spectrum.bddAbove
  rw [← Algebra.algebraMap_eq_smul_one, posSemidef_iff_isHermitian_and_spectrum_nonneg]
  refine ⟨?_, ?_⟩
  · rw [Algebra.algebraMap_eq_smul_one]
    exact (isHermitian_one.smul (IsSelfAdjoint.all _)).sub hH
  · rw [← spectrum.singleton_sub_eq]
    rintro _ ⟨a, ha, b, hb, rfl⟩
    rw [Set.mem_singleton_iff.1 ha]
    exact sub_nonneg.2 (le_csSup hbdd hb)

theorem dotProduct_mulVec_le_topEigenvalue {G : Mat ℝ n n} (hG : G.toMatrix.IsSymm)
    (x : Fin n → ℝ) : x ⬝ᵥ (G.toMatrix *ᵥ x) ≤ G.topEigenvalue * (x ⬝ᵥ x) := by
  have h := (posSemidef_topEigenvalue_sub hG).dotProduct_mulVec_nonneg x
  rw [star_trivial, sub_mulVec, dotProduct_sub, smul_mulVec, one_mulVec, dotProduct_smul,
    smul_eq_mul, sub_nonneg] at h
  exact h

theorem quadratic_le_topEigenvalue {G : Mat ℝ n n} (hG : G.toMatrix.IsSymm) {v : Vector ℝ n}
    (hv : Normalized v) : G.quadratic v ≤ G.topEigenvalue := by
  have h := dotProduct_mulVec_le_topEigenvalue hG v.get
  rw [hv, mul_one] at h
  exact h

/-- **The support function.** Over the spectrahedron, the inner product with a symmetric matrix is
at most its largest eigenvalue. -/
theorem frobenius_le_topEigenvalue {G : Mat ℝ n n} (hG : G.toMatrix.IsSymm) {Y : Mat ℝ n n}
    (hY : Y ∈ spectrahedron n) : G.frobenius Y ≤ G.topEigenvalue := by
  obtain ⟨k, w, hw⟩ := posSemidef_iff_eq_sum_vecMulVec.1 hY.1
  simp only [star_trivial] at hw
  have htrace : ∑ i, w i ⬝ᵥ w i = 1 := by
    rw [← hY.2, Mat.trace_eq_trace, hw, trace_sum]
    exact Finset.sum_congr rfl fun i _ => (trace_vecMulVec _ _).symm
  calc G.frobenius Y = ∑ i, w i ⬝ᵥ (G.toMatrix *ᵥ w i) := by
        rw [Mat.frobenius_eq_trace, isSymm_of_mem hY, hw, Matrix.mul_sum, trace_sum]
        refine Finset.sum_congr rfl fun i _ => ?_
        rw [mul_vecMulVec, trace_vecMulVec, dotProduct_comm]
    _ ≤ ∑ i, G.topEigenvalue * (w i ⬝ᵥ w i) :=
        Finset.sum_le_sum fun i _ => dotProduct_mulVec_le_topEigenvalue hG (w i)
    _ = G.topEigenvalue := by rw [← Finset.mul_sum, htrace, mul_one]

end Spectrahedron
