import Spectrahedron.Proofs.Restarts

/-!
# No division by zero

A rotation is made for an entry that is not zero, and its tangent and its cosine are reciprocals of
positive numbers. A restart divides by the norm of its first vector only if that is above the
threshold, by what is left of an image only if that counts as more than zero, and otherwise by what
is left of the least covered direction, which does not lie in the span. The Ritz vector has norm one
already. The vectors that a restart leaves behind are these quotients.

So an extraction does not depend on what a division by zero would give: it is the same for every
convention.

**Theorem (`Lanczos.topEig_divides_safely`).** The bases are orthonormal, the divisors are not zero,
the norm of a Ritz vector is one, and the convention does not matter.
-/

namespace Spectrahedron

open Scalar Matrix

variable {n m : ℕ}

/-! ## Another convention -/

variable (z : ℝ → ℝ)

/-- Division, with a value `z x` for `x / 0`. -/
noncomputable def divideOr (x y : ℝ) : ℝ := if y = 0 then z x else x / y

theorem divideOr_of_ne {x y : ℝ} (hy : y ≠ 0) : divideOr z x y = x / y := if_neg hy

/-- The real numbers with that division. -/
noncomputable abbrev Scalar.dividing : Scalar ℝ := { Scalar.instReal with div := divideOr z }

theorem recip_dividing {x : ℝ} (hx : x ≠ 0) : @recip ℝ (dividing z) x = recip x :=
  divideOr_of_ne z hx

/-! ## The decomposition -/

namespace Rotation

/-- The tangent of a rotation with that division. -/
noncomputable def tangentOr (ζ : ℝ) : ℝ :=
  if 0 < ζ then divideOr z 1 (ζ + √(1 + ζ * ζ)) else divideOr z (-1) (-ζ + √(1 + ζ * ζ))

theorem tangentOr_eq (ζ : ℝ) : tangentOr z ζ = tangent ζ := by
  have hroot : ∀ x : ℝ, 0 ≤ x → x + √(1 + x * x) ≠ 0 := fun x hx =>
    (add_pos_of_nonneg_of_pos hx (Real.sqrt_pos.2
      (add_pos_of_pos_of_nonneg one_pos (mul_self_nonneg x)))).ne'
  unfold tangentOr tangent
  split
  · rename_i hpos
    rw [divideOr_of_ne z (hroot ζ hpos.le)]
  · rename_i hnonpos
    have hne := hroot (-ζ) (neg_nonneg.2 (not_lt.1 hnonpos))
    rw [neg_mul_neg] at hne
    rw [divideOr_of_ne z hne]

/-- An entry that is not zero can be annihilated without a division by zero. -/
theorem annihilating_dividing (a b : ℝ) {d : ℝ} (hd : d ≠ 0) :
    @annihilating ℝ (dividing z) a b d = annihilating a b d := by
  have htwo : (two : ℝ) * d ≠ 0 := mul_ne_zero (two_eq.trans_ne two_ne_zero) hd
  have hsqrt : ∀ t : ℝ, √(1 + t * t) ≠ 0 := fun t =>
    (Real.sqrt_pos.2 (add_pos_of_pos_of_nonneg one_pos (mul_self_nonneg t))).ne'
  have hcos : ∀ t : ℝ, @recip ℝ (dividing z) √(1 + t * t) = recip √(1 + t * t) :=
    fun t => recip_dividing z (hsqrt t)
  have hwith : ∀ ζ t : ℝ, ζ = (b - a) / (two * d) → t = tangent ζ →
      annihilating a b d = ⟨recip √(1 + t * t), recip √(1 + t * t) * t⟩ := by
    rintro _ _ rfl rfl
    rfl
  rw [hwith _ _ (divideOr_of_ne z htwo) (tangentOr_eq z _), ← hcos]
  rfl

end Rotation

namespace Diagonalization

theorem rotate_dividing (s : Diagonalization ℝ n) {i j : Fin n} (hd : s.mat.get i j ≠ 0) :
    @rotate ℝ (dividing z) n s i j = s.rotate i j := by
  unfold rotate
  rw [Rotation.annihilating_dividing z _ _ hd]
  rfl

/-- Only entries that are not zero are annihilated. -/
theorem visit_dividing {tol : ℝ} (htol : 0 ≤ tol) (sqNorm : ℝ) :
    @visit ℝ (dividing z) n tol sqNorm = visit tol sqNorm := by
  funext s p
  by_cases hsig : significant tol sqNorm s.1.mat p.1 p.2
  · have hrotate := rotate_dividing z s.1 (get_ne_zero_of_significant htol hsig)
    have hvisit : visit tol sqNorm s p = (s.1.rotate p.1 p.2, true) := if_pos hsig
    rw [hvisit, ← hrotate]
    exact if_pos hsig
  · have hvisit : visit tol sqNorm s p = s := if_neg hsig
    rw [hvisit]
    exact if_neg hsig

theorem sweeps_dividing {tol : ℝ} (htol : 0 ≤ tol) (sqNorm : ℝ) (k : ℕ)
    (s : Diagonalization ℝ n) :
    @sweeps ℝ (dividing z) n tol sqNorm k s = sweeps tol sqNorm k s := by
  have hsweep : @sweep ℝ (dividing z) n tol sqNorm = sweep tol sqNorm := by
    funext s
    unfold sweep
    rw [visit_dividing z htol]
  induction k generalizing s with
  | zero => rfl
  | succ k ih =>
    unfold sweeps
    rw [hsweep]
    split
    · exact ih _
    · rfl

end Diagonalization

theorem Mat.eigen_dividing (A : Mat ℝ n n) (epsZero : ℝ) (maxSweeps : ℕ) :
    @Mat.eigen ℝ (dividing z) n A epsZero maxSweeps = A.eigen epsZero maxSweeps := by
  have hsweeps := Diagonalization.sweeps_dividing z (mul_self_nonneg epsZero)
    (sumSquares A.data) maxSweeps (Diagonalization.start A)
  unfold Mat.eigen
  rw [← hsweeps]
  rfl

/-! ## The basis -/

theorem normalize_dividing {epsZero : ℝ} (heps : 0 ≤ epsZero) (v : Vector ℝ n) (hn : 0 < n) :
    @normalize ℝ (dividing z) n epsZero v hn = normalize epsZero v hn := by
  by_cases hlt : epsZero < norm v
  · rw [normalize_of_lt hlt, ← recip_dividing z (heps.trans_lt hlt).ne']
    exact if_pos hlt
  · rw [normalize_of_not_lt hlt]
    exact if_neg hlt

namespace Krylov

theorem fresh_dividing {K : Krylov ℝ n m} {j : Fin m} (hK : K.basis.OrthonormalUpTo (j + 1))
    (hmn : m ≤ n) (first : Fin n) (hj : j.val + 1 < m) :
    @fresh ℝ (dividing z) n m K.basis (j + 1) j.isLt first (K.basis.col ⟨j.val + 1, hj⟩)
      = fresh K.basis (j + 1) j.isLt first (K.basis.col ⟨j.val + 1, hj⟩) := by
  have hne : norm (K.freshRest first j hj) ≠ 0 :=
    (norm_fresh_pos hK j.isLt (hj.trans_le hmn) first _).ne'
  calc @fresh ℝ (dividing z) n m K.basis (j + 1) j.isLt first (K.basis.col ⟨j.val + 1, hj⟩)
      = scale (@recip ℝ (dividing z) (norm (K.freshRest first j hj))) (K.freshRest first j hj) :=
        rfl
    _ = scale (recip (norm (K.freshRest first j hj))) (K.freshRest first j hj) := by
        rw [recip_dividing z hne]
    _ = fresh K.basis (j + 1) j.isLt first (K.basis.col ⟨j.val + 1, hj⟩) :=
        (K.fresh_eq_scale first j hj).symm

theorem extend_dividing (G : Mat ℝ n n) {tiny : ℝ} (htiny : 0 ≤ tiny) (hmn : m ≤ n)
    (first : Fin n) {K : Krylov ℝ n m} {j : Fin m} (hK : K.basis.OrthonormalUpTo (j + 1)) :
    @extend ℝ (dividing z) n m G tiny first K j = K.extend G tiny first j := by
  by_cases hroom : j.val + 1 < m
  · refine (dif_pos hroom).trans (Eq.trans ?_ (dif_pos hroom).symm)
    by_cases hb : tiny < norm (K.imageRest G j)
    · refine (if_pos hb).trans (Eq.trans ?_ (if_pos hb).symm)
      have hrecip := recip_dividing z (htiny.trans_lt hb).ne'
      rw [imageRest] at hrecip
      rw [← hrecip]
      rfl
    · refine (if_neg hb).trans (Eq.trans ?_ (if_neg hb).symm)
      rw [← fresh_dividing z hK hmn first hroom]
      rfl
  · refine (dif_neg hroom).trans (Eq.trans ?_ (dif_neg hroom).symm)
    rfl

theorem build_dividing (G : Mat ℝ n n) {tiny : ℝ} (htiny : 0 ≤ tiny) (hm : 0 < m) (hmn : m ≤ n)
    {v : Vector ℝ n} (hv : Normalized v) (K : Krylov ℝ n m) :
    @build ℝ (dividing z) n m G tiny hm hmn v K = K.build G tiny hm hmn v :=
  foldl_congr_of_invariant (fun j (K : Krylov ℝ n m) => K.basis.OrthonormalUpTo (j + 1))
    (Mat.OrthonormalUpTo.setCol_zero hv hm) (fun j K => orthonormalUpTo_extend htiny hmn j K)
    fun _ _ hK => extend_dividing z G htiny hmn _ hK

theorem combine_dividing {K : Krylov ℝ n m} (hK : K.basis.OrthonormalColumns) {s : Vector ℝ m}
    (hs : Normalized s) (old : Vector ℝ n) :
    @combine ℝ (dividing z) n m K s old = K.combine s old := by
  have hne : norm (K.basis.transform 1 s 0 old) ≠ 0 :=
    (normalized_transform hK hs old).norm_eq_one.trans_ne one_ne_zero
  unfold combine
  dsimp only
  rw [← recip_dividing z hne]
  rfl

theorem diagonalize_dividing (K : Krylov ℝ n m) (epsZero : ℝ) (maxSweeps : ℕ) :
    @diagonalize ℝ (dividing z) n m K epsZero maxSweeps = K.diagonalize epsZero maxSweeps := by
  unfold diagonalize
  rw [← Mat.eigen_dividing z]
  rfl

end Krylov

/-! ## Extractions -/

namespace Lanczos

/-- What a restart makes of the decomposition of its tridiagonal matrix. -/
def conclude {α : Type} [Scalar α] (l : Lanczos α) (hm : 0 < m) (u : Vector α n)
    (p : EigenDecomposition α m × Krylov α n m) : Restart α n m :=
  if p.1.converged then
    let i := argmax p.1.values hm
    let s := p.1.basis.col i
    ⟨some (p.1.values.get i, p.2.residual s hm), p.2.combine s u, p.2, p.1.events l.maxIter⟩
  else ⟨none, u, p.2, p.1.events l.maxIter⟩

variable (l : Lanczos ℝ) (G : Mat ℝ n n)

theorem conclude_dividing (hm : 0 < m) (u : Vector ℝ n)
    {p : EigenDecomposition ℝ m × Krylov ℝ n m} (hbasis : p.1.basis.OrthonormalColumns)
    (hK : p.2.basis.OrthonormalColumns) :
    @conclude n m ℝ (dividing z) l hm u p = l.conclude hm u p := by
  unfold conclude
  by_cases hconv : p.1.converged = true
  · rw [if_pos hconv, if_pos hconv]
    dsimp only
    rw [← Krylov.combine_dividing z hK (hbasis.normalized_col _)]
    rfl
  · rw [if_neg hconv, if_neg hconv]

variable {l} (hl : 0 ≤ l.epsZero)

include hl

theorem restart_dividing {normG : ℝ} (hG : 0 ≤ normG) (hm : 0 < m) (hmn : m ≤ n) (v : Vector ℝ n)
    (K : Krylov ℝ n m) :
    @restart ℝ (dividing z) n m l G normG hm hmn v K = l.restart G normG hm hmn v K := by
  have hu := normalize_dividing z hl v (dim_pos_of_le hm hmn)
  have hbuild : _ = l.basisFrom G normG hm hmn v K := Krylov.build_dividing z G (mul_nonneg hl hG)
    hm hmn (normalized_normalize hl v (dim_pos_of_le hm hmn)) K
  have hpair := Krylov.diagonalize_dividing z (l.basisFrom G normG hm hmn v K) l.epsZero l.maxIter
  calc @restart ℝ (dividing z) n m l G normG hm hmn v K
      = @conclude n m ℝ (dividing z) l hm
          (@normalize ℝ (dividing z) n l.epsZero v (dim_pos_of_le hm hmn))
          (@Krylov.diagonalize ℝ (dividing z) n m (@Krylov.build ℝ (dividing z) n m G
            (l.epsZero * normG) hm hmn (@normalize ℝ (dividing z) n l.epsZero v
              (dim_pos_of_le hm hmn)) K) l.epsZero l.maxIter) := rfl
    _ = @conclude n m ℝ (dividing z) l hm (normalize l.epsZero v (dim_pos_of_le hm hmn))
          ((l.basisFrom G normG hm hmn v K).diagonalize l.epsZero l.maxIter) := by
        rw [hu, hbuild, hpair]
    _ = l.restart G normG hm hmn v K :=
        l.conclude_dividing z hm _ (orthonormalColumns_eigen _ _ _)
          (orthonormalColumns_basisFrom hl hG)

theorem restarts_dividing {normG : ℝ} (hG : 0 ≤ normG) (tol : ℝ) (hm : 0 < m) (hmn : m ≤ n)
    (left number : ℕ) (v : Vector ℝ n) (K : Krylov ℝ n m) (events : Array (Event ℝ)) :
    @restarts ℝ (dividing z) n m l G normG tol hm hmn left number v K events
      = l.restarts G normG tol hm hmn left number v K events := by
  induction left generalizing number v K events with
  | zero => rfl
  | succ left ih =>
    unfold restarts
    rw [restart_dividing z G hl hG]
    dsimp only
    split
    · rfl
    · rename_i value residual hritz
      by_cases haccept : residual ≤ tol * normG
      · exact (if_pos haccept).trans (if_pos haccept).symm
      · exact (if_neg haccept).trans ((ih _ _ _ _).trans (if_neg haccept).symm)

theorem normalize?_dividing (hn : 0 < n) (v : Vector ℝ n) :
    @normalize? ℝ (dividing z) n l.epsZero v = normalize? l.epsZero v := by
  unfold normalize?
  rw [dif_pos hn, dif_pos hn, normalize_dividing z hl v hn]

/-- An extraction is the same for every convention. -/
theorem topEig_dividing (hn : 0 < n) (tol : ℝ) (vec : Vector ℝ n)
    (K : Krylov ℝ n (basisDim l.krylovDim n)) :
    @topEig ℝ (dividing z) n l G tol vec K = l.topEig G tol vec K := by
  by_cases hsmall : G.norm ≤ l.epsZero
  · refine (if_pos hsmall).trans (Eq.trans ?_ (if_pos hsmall).symm)
    unfold topEigZero
    rw [normalize?_dividing z hl hn]
  · refine (if_neg hsmall).trans (Eq.trans ?_ (if_neg hsmall).symm)
    unfold topEigNonzero
    rw [dif_pos hn, dif_pos hn]
    exact restarts_dividing z G hl G.zero_le_norm tol _ _ _ _ _ _ _

end Lanczos

/-! ## The divisors -/

namespace Lanczos

/-- The regions of a restart after the first `j` steps of its basis. -/
noncomputable def basisUpTo (l : Lanczos ℝ) (G : Mat ℝ n n) (hm : 0 < m) (hmn : m ≤ n)
    (v : Vector ℝ n) (K : Krylov ℝ n m) (j : Fin m) : Krylov ℝ n m :=
  K.buildUpTo G (l.epsZero * G.norm) hm hmn (normalize l.epsZero v (dim_pos_of_le hm hmn)) j
    j.isLt.le

/-- The norms that a restart divides by: that of the vector it begins with, that of what is left of
an image or of the coordinate that replaces it, and that of the Ritz vector. -/
structure DividesSafely (l : Lanczos ℝ) (G : Mat ℝ n n) (hm : 0 < m) (hmn : m ≤ n) (v : Vector ℝ n)
    (K : Krylov ℝ n m) : Prop where
  start : l.epsZero < norm v → norm v ≠ 0
  image : ∀ j : Fin m, j.val + 1 < m →
    l.epsZero * G.norm < norm ((l.basisUpTo G hm hmn v K j).imageRest G j) →
      norm ((l.basisUpTo G hm hmn v K j).imageRest G j) ≠ 0
  fresh : ∀ (j : Fin m) (hj : j.val + 1 < m),
    norm ((l.basisUpTo G hm hmn v K j).imageRest G j) ≤ l.epsZero * G.norm →
      norm ((l.basisUpTo G hm hmn v K j).freshRest ⟨0, dim_pos_of_le hm hmn⟩ j hj) ≠ 0
  ritz : norm ((l.basisFrom G G.norm hm hmn v K).basis.transform 1
    ((l.ritzPairs G G.norm hm hmn v K).basis.col
      (argmax (l.ritzPairs G G.norm hm hmn v K).values hm)) 0
    (normalize l.epsZero v (dim_pos_of_le hm hmn))) = 1

section Quotients

variable {l : Lanczos ℝ} {G : Mat ℝ n n} {hm : 0 < m} {hmn : m ≤ n} {v : Vector ℝ n}
  {K : Krylov ℝ n m}

theorem basisUpTo_succ (j : Fin m) (hj : j.val + 1 < m) :
    l.basisUpTo G hm hmn v K ⟨j.val + 1, hj⟩ = (l.basisUpTo G hm hmn v K j).extend G
      (l.epsZero * G.norm) ⟨0, dim_pos_of_le hm hmn⟩ j :=
  Krylov.buildUpTo_succ G _ hm hmn _ K j

/-- The basis that a restart leaves behind begins with its starting vector. -/
theorem col_zero_restart : (l.restart G G.norm hm hmn v K).work.basis.col ⟨0, hm⟩
    = normalize l.epsZero v (dim_pos_of_le hm hmn) := by
  rw [basis_work_restart]
  exact Krylov.col_zero_build hm hmn _ K

/-- A further vector is the one that a step makes of what the steps before it have left. -/
theorem col_succ_restart (j : Fin m) (hj : j.val + 1 < m) :
    (l.restart G G.norm hm hmn v K).work.basis.col ⟨j.val + 1, hj⟩
      = ((l.basisUpTo G hm hmn v K j).extend G (l.epsZero * G.norm) ⟨0, dim_pos_of_le hm hmn⟩
          j).basis.col ⟨j.val + 1, hj⟩ := by
  rw [basis_work_restart]
  exact Krylov.col_succ_build hm hmn _ K j hj

/-- That is what is left of the image, divided by its norm, -/
theorem col_succ_restart_of_lt {j : Fin m} (hj : j.val + 1 < m)
    (hb : l.epsZero * G.norm < norm ((l.basisUpTo G hm hmn v K j).imageRest G j)) :
    (l.restart G G.norm hm hmn v K).work.basis.col ⟨j.val + 1, hj⟩
      = scale (recip (norm ((l.basisUpTo G hm hmn v K j).imageRest G j)))
          ((l.basisUpTo G hm hmn v K j).imageRest G j) := by
  rw [col_succ_restart, Krylov.basis_extend_of_lt hj hb, Mat.col_setCol_self]

/-- or what is left of the coordinate that replaces it, divided by its norm. -/
theorem col_succ_restart_of_le {j : Fin m} (hj : j.val + 1 < m)
    (hb : norm ((l.basisUpTo G hm hmn v K j).imageRest G j) ≤ l.epsZero * G.norm) :
    (l.restart G G.norm hm hmn v K).work.basis.col ⟨j.val + 1, hj⟩
      = scale (recip (norm ((l.basisUpTo G hm hmn v K j).freshRest ⟨0, dim_pos_of_le hm hmn⟩ j hj)))
          ((l.basisUpTo G hm hmn v K j).freshRest ⟨0, dim_pos_of_le hm hmn⟩ j hj) := by
  rw [col_succ_restart, Krylov.basis_extend_of_not_lt hj (not_lt.2 hb), Mat.col_setCol_self]

/-- The Ritz vector is a combination of the basis vectors, divided by its norm. -/
theorem vec_restart {ritz : ℝ × ℝ} (h : (l.restart G G.norm hm hmn v K).ritz = some ritz) :
    (l.restart G G.norm hm hmn v K).vec = (l.basisFrom G G.norm hm hmn v K).combine
      ((l.ritzPairs G G.norm hm hmn v K).basis.col
        (argmax (l.ritzPairs G G.norm hm hmn v K).values hm))
      (normalize l.epsZero v (dim_pos_of_le hm hmn)) := by
  unfold restart at h ⊢
  dsimp only at h ⊢
  split at h
  · rename_i hconv
    rw [if_pos hconv]
    rfl
  · cases h

end Quotients

theorem dividesSafely {l : Lanczos ℝ} (hl : 0 ≤ l.epsZero) (G : Mat ℝ n n) (hm : 0 < m)
    (hmn : m ≤ n) (v : Vector ℝ n) (K : Krylov ℝ n m) : l.DividesSafely G hm hmn v K := by
  have htiny : 0 ≤ l.epsZero * G.norm := mul_nonneg hl G.zero_le_norm
  have hupTo : ∀ j : Fin m, (l.basisUpTo G hm hmn v K j).basis.OrthonormalUpTo (j + 1) := fun j =>
    Krylov.orthonormalUpTo_buildUpTo htiny hm hmn (normalized_normalize hl v _) K j j.isLt.le
  refine ⟨fun hlt => (hl.trans_lt hlt).ne', fun j _ hlt => (htiny.trans_lt hlt).ne',
    fun j hj _ => ?_, ?_⟩
  · exact (Krylov.norm_fresh_pos (hupTo j) j.isLt (hj.trans_le hmn) _ _).ne'
  · exact (Krylov.normalized_transform (orthonormalColumns_basisFrom hl G.zero_le_norm)
      ((orthonormalColumns_eigen _ _ _).normalized_col _) _).norm_eq_one

/-- **An extraction never divides by zero.** Whatever a restart begins with, its basis consists of
`m` orthonormal vectors, none of the norms that it divides by is zero, and the norm of its Ritz
vector is one. An extraction that succeeds leaves a vector of norm one. And the whole extraction, the
decompositions in it included, is the same for every value that a division by zero could have. -/
theorem topEig_divides_safely (l : Lanczos ℝ) (hl : 0 ≤ l.epsZero) (hn : 0 < n) (G : Mat ℝ n n) :
    (∀ v K, (l.basisFrom G G.norm (l.basisDim_pos hn) (basisDim_le _ _) v
        K).basis.OrthonormalColumns ∧
      l.DividesSafely G (l.basisDim_pos hn) (basisDim_le _ _) v K) ∧
    ∀ tol vec K,
      (∀ value, (l.topEig G tol vec K).outcome = .ok value → norm (l.topEig G tol vec K).vec = 1) ∧
      ∀ z, @topEig ℝ (dividing z) n l G tol vec K = l.topEig G tol vec K := by
  refine ⟨fun v K => ⟨?_, dividesSafely hl G _ _ v K⟩, fun tol vec K => ⟨fun value h => ?_, ?_⟩⟩
  · exact orthonormalColumns_basisFrom hl G.zero_le_norm
  · exact (normalized_topEig hl hn G tol vec K h).norm_eq_one
  · exact fun z => topEig_dividing z G hl hn tol vec K

/-- The extraction from a diagonal matrix that starts in an eigenvector divides by what is left of
another coordinate, and does not change if a division by zero gives seven. -/
theorem twoLevels_divides_safely :
    0 ≤ patientLanczos.epsZero ∧
    norm ((patientLanczos.basisUpTo Extractor.twoLevels Nat.two_pos le_rfl Extractor.zeroVector
      zeroKrylov 0).freshRest 0 0 one_lt_two) ≠ 0 ∧
    ∃ value, (patientLanczos.topEig Extractor.twoLevels 0 Extractor.zeroVector zeroKrylov).outcome
        = .ok value ∧
      norm (patientLanczos.topEig Extractor.twoLevels 0 Extractor.zeroVector zeroKrylov).vec = 1 ∧
      (@topEig ℝ (dividing fun _ => 7) 2 patientLanczos Extractor.twoLevels 0 Extractor.zeroVector
        zeroKrylov).outcome = .ok value := by
  have hl : 0 < patientLanczos.epsZero := patientLanczos_epsZero_pos
  have hnorm : patientLanczos.epsZero < Extractor.twoLevels.norm := by
    have hsq := Extractor.norm_sq_twoLevels
    refine lt_of_pow_lt_pow_left₀ 2 Extractor.twoLevels.zero_le_norm ?_
    rw [hsq]
    norm_num [patientLanczos_epsZero]
  obtain ⟨hbases, hruns⟩ := topEig_divides_safely patientLanczos hl.le Nat.two_pos
    Extractor.twoLevels
  obtain ⟨hvec, hsame⟩ := hruns 0 Extractor.zeroVector zeroKrylov
  have hsafe : patientLanczos.DividesSafely Extractor.twoLevels Nat.two_pos le_rfl
    Extractor.zeroVector zeroKrylov := (hbases Extractor.zeroVector zeroKrylov).2
  obtain ⟨value, hok⟩ := exists_topEig_patientLanczos_eq_ok hnorm
  refine ⟨hl.le, hsafe.fresh 0 one_lt_two ?_, value, hok, hvec value hok, ?_⟩
  · -- The first coordinate direction is an eigenvector, of which nothing is left.
    have hupTo := Krylov.orthonormalUpTo_buildUpTo (G := Extractor.twoLevels)
      (mul_nonneg hl.le Extractor.twoLevels.zero_le_norm) Nat.two_pos le_rfl
      (normalized_normalize hl.le Extractor.zeroVector Nat.two_pos) zeroKrylov 0 zero_le_two
    have hrest : (patientLanczos.basisUpTo Extractor.twoLevels Nat.two_pos le_rfl
        Extractor.zeroVector zeroKrylov 0).imageRest Extractor.twoLevels 0
        = Krylov.rest Extractor.twoLevels _ 0 := Krylov.imageRest_eq_rest hupTo
    have hcol : ((patientLanczos.basisUpTo Extractor.twoLevels Nat.two_pos le_rfl
        Extractor.zeroVector zeroKrylov 0).basis.col 0).get = Pi.single 0 1 := by
      refine Eq.trans ?_ Extractor.get_normalize_zeroVector
      exact (Mat.OrthonormalUpTo.col_setCol _ 0 0 _).trans (if_pos rfl)
    have hzero : norm (Krylov.rest Extractor.twoLevels (patientLanczos.basisUpTo
        Extractor.twoLevels Nat.two_pos le_rfl Extractor.zeroVector zeroKrylov 0).basis 0) = 0 := by
      refine Krylov.norm_rest_eq_zero hupTo (μ := 1) ?_
      rw [hcol]
      funext k
      fin_cases k <;> simp [Extractor.twoLevels, Objective.diagonalMatrix]
    rw [hrest, hzero]
    exact mul_nonneg hl.le Extractor.twoLevels.zero_le_norm
  · exact (congrArg Extraction.outcome (hsame _)).trans hok

end Lanczos

end Spectrahedron
