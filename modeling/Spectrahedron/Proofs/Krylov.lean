import Spectrahedron.Proofs.Linear

/-!
# Krylov bases are orthonormal

Taking off the components along orthonormal vectors leaves a vector orthogonal to all of them, whose
square norm is smaller by the squares of the components. So a step that finds an image outside of
the span of the basis divides it by a norm that is not zero. A step that finds none goes on from a
coordinate direction; the coverages of the `n` coordinates add up to the number of basis vectors,
which is less than `n`, so the least covered direction does not lie in the span either.

**Theorem (`orthonormalColumns_build`).** The basis that is built from a unit vector is orthonormal,
however often the span becomes invariant.
-/

namespace Spectrahedron

open Scalar Matrix

variable {n m : ℕ}

/-! ## Bases under construction -/

/-- The first `count` columns are orthonormal. -/
def Mat.OrthonormalUpTo (B : Mat ℝ n m) (count : ℕ) : Prop :=
  ∀ i j : Fin m, i.val < count → j.val < count →
    (B.col i).get ⬝ᵥ (B.col j).get = if i = j then 1 else 0

theorem Mat.OrthonormalColumns.upTo {B : Mat ℝ n m} (h : B.OrthonormalColumns) (count : ℕ) :
    B.OrthonormalUpTo count := fun i j _ _ => h.dotProduct_col i j

namespace Mat.OrthonormalUpTo

variable {B : Mat ℝ n m} {count : ℕ}

theorem orthonormalColumns (h : B.OrthonormalUpTo count) (hm : m ≤ count) :
    B.OrthonormalColumns := by
  ext i j
  have hij := h i j (i.isLt.trans_le hm) (j.isLt.trans_le hm)
  rw [get_col_eq, get_col_eq] at hij
  rw [Matrix.one_apply]
  exact hij

/-- Once all columns are orthonormal, no count is too large. -/
theorem of_ge (h : B.OrthonormalUpTo count) (hm : m ≤ count) (count' : ℕ) :
    B.OrthonormalUpTo count' :=
  fun i j _ _ => h i j (i.isLt.trans_le hm) (j.isLt.trans_le hm)

theorem col_setCol (B : Mat ℝ n m) (c c' : Fin m) (v : Vector ℝ n) :
    ((B.setCol c v).col c').get = if c' = c then v.get else (B.col c').get := by
  funext r
  split_ifs with h <;> simp [h]

/-- A first unit vector is orthonormal. -/
theorem setCol_zero {v : Vector ℝ n} (hv : Normalized v) (hm : 0 < m) :
    (B.setCol ⟨0, hm⟩ v).OrthonormalUpTo 1 := by
  intro i j hi hj
  have hi0 : i = ⟨0, hm⟩ := Fin.ext (Nat.lt_one_iff.1 hi)
  have hj0 : j = ⟨0, hm⟩ := Fin.ext (Nat.lt_one_iff.1 hj)
  rw [col_setCol, col_setCol, if_pos hi0, if_pos hj0, if_pos (hi0.trans hj0.symm)]
  exact hv

/-- A unit vector that is orthogonal to the columns so far makes one more. -/
theorem setCol (h : B.OrthonormalUpTo count) (hc : count < m) {v : Vector ℝ n}
    (hv : Normalized v) (horth : ∀ i : Fin m, i.val < count → v.get ⬝ᵥ (B.col i).get = 0) :
    (B.setCol ⟨count, hc⟩ v).OrthonormalUpTo (count + 1) := by
  have hold : ∀ i : Fin m, i ≠ ⟨count, hc⟩ → i.val < count + 1 → i.val < count := by
    intro i hne hi
    exact lt_of_le_of_ne (Nat.lt_succ_iff.1 hi) fun he => hne (Fin.ext he)
  intro i j hi hj
  rw [col_setCol, col_setCol]
  by_cases hic : i = ⟨count, hc⟩ <;> by_cases hjc : j = ⟨count, hc⟩
  · rw [if_pos hic, if_pos hjc, if_pos (hic.trans hjc.symm)]
    exact hv
  · rw [if_pos hic, if_neg hjc, if_neg fun he : i = j => hjc (he.symm.trans hic)]
    exact horth j (hold j hjc hj)
  · rw [if_neg hic, if_pos hjc, if_neg fun he : i = j => hic (he.trans hjc), dotProduct_comm]
    exact horth i (hold i hic hi)
  · rw [if_neg hic, if_neg hjc]
    exact h i j (hold i hic hi) (hold j hjc hj)

end Mat.OrthonormalUpTo

/-- A space with a basis vector in it has a coordinate. -/
theorem dim_pos_of_le (hm : 0 < m) (hmn : m ≤ n) : 0 < n := Nat.lt_of_lt_of_le hm hmn

namespace Krylov

variable {B : Mat ℝ n m} {count : ℕ}

/-! ## Projections -/

theorem project_succ (B : Mat ℝ n m) (h : count + 1 ≤ m) (w : Vector ℝ n) :
    project B (count + 1) h w =
      let w' := project B count (Nat.le_of_succ_le h) w
      addScaled (-inner w' (B.col ⟨count, h⟩)) (B.col ⟨count, h⟩) w' := by
  unfold project
  rw [Fin.foldl_succ_last]
  rfl

/-- The projection takes off the components, as if all of them were computed from the start. -/
theorem get_project (hB : B.OrthonormalUpTo count) (h : count ≤ m) (w : Vector ℝ n) :
    (project B count h w).get = w.get - ∑ i : Fin count,
      (w.get ⬝ᵥ (B.col (i.castLE h)).get) • (B.col (i.castLE h)).get := by
  induction count with
  | zero => simp [project]
  | succ c ih =>
    have hlow : B.OrthonormalUpTo c := fun i j hi hj => hB i j (hi.trans (Nat.lt_succ_self c))
      (hj.trans (Nat.lt_succ_self c))
    have hw := ih hlow (Nat.le_of_succ_le h)
    -- The components taken off before are orthogonal to the next basis vector.
    have hcomp : (project B c (Nat.le_of_succ_le h) w).get ⬝ᵥ (B.col ⟨c, h⟩).get
        = w.get ⬝ᵥ (B.col ⟨c, h⟩).get := by
      rw [hw, sub_dotProduct, sum_dotProduct, sub_eq_self]
      refine Finset.sum_eq_zero fun i _ => ?_
      rw [smul_dotProduct, hB _ _ (i.isLt.trans (Nat.lt_succ_self c)) (Nat.lt_succ_self c),
        if_neg, smul_zero]
      exact fun he => i.isLt.ne (congrArg Fin.val he)
    rw [project_succ, get_addScaled_eq_add, inner_eq_dotProduct, hcomp, hw,
      Fin.sum_univ_castSucc, neg_smul, ← sub_eq_add_neg, sub_sub]
    rfl

theorem dotProduct_project_col (hB : B.OrthonormalUpTo count) (h : count ≤ m) (w : Vector ℝ n)
    {j : Fin m} (hj : j.val < count) : (project B count h w).get ⬝ᵥ (B.col j).get = 0 := by
  rw [get_project hB, sub_dotProduct, sum_dotProduct, sub_eq_zero, eq_comm]
  rw [Finset.sum_eq_single ⟨j.val, hj⟩]
  · show ((w.get ⬝ᵥ (B.col j).get) • (B.col j).get) ⬝ᵥ (B.col j).get = _
    rw [smul_dotProduct, hB j j hj hj, if_pos rfl, smul_eq_mul, mul_one]
  · intro i _ hne
    rw [smul_dotProduct, hB _ _ i.isLt hj, if_neg, smul_zero]
    intro he
    have hval : i.val = j.val := congrArg Fin.val he
    exact hne (Fin.ext hval)
  · intro hnot
    exact absurd (Finset.mem_univ _) hnot

/-- The square norm becomes smaller by the squares of the components. -/
theorem dotProduct_project_self (hB : B.OrthonormalUpTo count) (h : count ≤ m) (w : Vector ℝ n) :
    (project B count h w).get ⬝ᵥ (project B count h w).get =
      w.get ⬝ᵥ w.get - ∑ i : Fin count, (w.get ⬝ᵥ (B.col (i.castLE h)).get) ^ 2 := by
  have hself : (project B count h w).get ⬝ᵥ (project B count h w).get
      = (project B count h w).get ⬝ᵥ w.get := by
    nth_rewrite 2 [get_project hB h w]
    rw [dotProduct_sub, dotProduct_sum, sub_eq_self]
    refine Finset.sum_eq_zero fun i _ => ?_
    rw [dotProduct_smul, dotProduct_project_col hB h w i.isLt, smul_zero]
  rw [hself, get_project hB, sub_dotProduct, sum_dotProduct]
  congr 1
  refine Finset.sum_congr rfl fun i _ => ?_
  rw [smul_dotProduct, smul_eq_mul, dotProduct_comm _ w.get, sq]

/-- What is orthogonal already is left as it is, so the second projection changes nothing. -/
theorem orthogonalize_eq_project (hB : B.OrthonormalUpTo count) (h : count ≤ m)
    (w : Vector ℝ n) : orthogonalize B count h w = project B count h w := by
  refine Vec.ext_get fun k => congrFun ?_ k
  show (project B count h (project B count h w)).get = (project B count h w).get
  rw [get_project hB h (project B count h w), sub_eq_self]
  refine Finset.sum_eq_zero fun i _ => ?_
  rw [dotProduct_project_col hB h w i.isLt, zero_smul]

/-! ## Fresh directions -/

theorem coverage_eq (B : Mat ℝ n m) (h : count ≤ m) (k : Fin n) :
    coverage B count h k = ∑ i : Fin count, B.get k (i.castLE h) ^ 2 := by
  unfold coverage
  rw [sum_eq]
  exact Finset.sum_congr rfl fun i _ => (sq _).symm

/-- Each basis vector covers one coordinate's worth. -/
theorem sum_coverage (hB : B.OrthonormalUpTo count) (h : count ≤ m) :
    ∑ k, coverage B count h k = count := by
  have hcol : ∀ i : Fin count, ∑ k, B.get k (i.castLE h) ^ 2 = 1 := by
    intro i
    have hi := hB (i.castLE h) (i.castLE h) i.isLt i.isLt
    rw [if_pos rfl] at hi
    rw [← hi]
    refine Finset.sum_congr rfl fun k _ => ?_
    rw [Mat.get_col, sq]
  simp only [coverage_eq]
  rw [Finset.sum_comm, Finset.sum_congr rfl fun i _ => hcol i]
  simp

/-- The best coordinate among the first `j`: there is none before the first one, and none of them is
covered less. -/
def LeastUpTo (B : Mat ℝ n m) (h : count ≤ m) (j : ℕ) : Option (Fin n × ℝ) → Prop
  | none => j = 0
  | some (l, c) => c = coverage B count h l ∧ ∀ k : Fin n, k.val < j → c ≤ coverage B count h k

theorem leastUpTo_lessCovered {h : count ≤ m} (k : Fin n) (best : Option (Fin n × ℝ))
    (hbest : LeastUpTo B h k best) : LeastUpTo B h (k + 1) (lessCovered B count h best k) := by
  have hlast : ∀ l : Fin n, l.val < k.val + 1 → l.val < k.val ∨ l = k := by
    intro l hl
    rcases Nat.lt_succ_iff_lt_or_eq.1 hl with hlt | heq
    · exact Or.inl hlt
    · exact Or.inr (Fin.ext heq)
  cases best with
  | none =>
    have hk : k.val = 0 := hbest
    refine ⟨rfl, fun l hl => ?_⟩
    rcases hlast l hl with hlt | rfl
    · omega
    · exact le_rfl
  | some p =>
    obtain ⟨hp, hle⟩ := hbest
    simp only [lessCovered]
    split
    · rename_i hlt
      refine ⟨rfl, fun l hl => ?_⟩
      rcases hlast l hl with hl' | rfl
      · exact hlt.le.trans (hle l hl')
      · exact le_rfl
    · rename_i hge
      refine ⟨hp, fun l hl => ?_⟩
      rcases hlast l hl with hl' | rfl
      · exact hle l hl'
      · exact not_lt.1 hge

/-- No coordinate is covered less than the one chosen. -/
theorem coverage_leastCovered_le (B : Mat ℝ n m) (h : count ≤ m) (first k : Fin n) :
    coverage B count h (leastCovered B count h first) ≤ coverage B count h k := by
  have hscan : LeastUpTo B h n (Fin.foldl n (lessCovered B count h) none) :=
    foldl_invariant (LeastUpTo B h) rfl leastUpTo_lessCovered
  unfold leastCovered
  split
  · rename_i hnone
    rw [hnone] at hscan
    have hn : n = 0 := hscan
    exact absurd k.isLt (by omega)
  · rename_i l c hsome
    rw [hsome] at hscan
    exact hscan.1 ▸ hscan.2 k k.isLt

/-- Fewer basis vectors than coordinates leave one that is not covered. -/
theorem coverage_leastCovered_lt_one (hB : B.OrthonormalUpTo count) (h : count ≤ m)
    (hlt : count < n) (first : Fin n) :
    coverage B count h (leastCovered B count h first) < 1 := by
  by_contra hge
  have hall : ∀ k : Fin n, 1 ≤ coverage B count h k := fun k =>
    (not_lt.1 hge).trans (coverage_leastCovered_le B h first k)
  have hsum : (n : ℝ) ≤ ∑ k, coverage B count h k := by
    simpa using Finset.sum_le_sum fun k (_ : k ∈ Finset.univ) => hall k
  rw [sum_coverage hB h] at hsum
  exact absurd hsum (not_le.2 (Nat.cast_lt.2 hlt))

/-- The square norm of what is left of the least covered direction. -/
theorem norm_fresh_pos (hB : B.OrthonormalUpTo count) (h : count ≤ m) (hlt : count < n)
    (first : Fin n) (old : Vector ℝ n) :
    0 < norm (orthogonalize B count h
      (coordinateOver old (leastCovered B count h first))) := by
  have hcov := coverage_leastCovered_lt_one hB h hlt first
  rw [norm_eq_sqrt, Real.sqrt_pos, orthogonalize_eq_project hB, dotProduct_project_self hB,
    normalized_coordinateOver old (leastCovered B count h first), sub_pos]
  refine lt_of_eq_of_lt ?_ hcov
  rw [coverage_eq]
  refine Finset.sum_congr rfl fun i _ => ?_
  rw [get_coordinateOver, single_one_dotProduct, Mat.get_col]

theorem normalized_fresh (hB : B.OrthonormalUpTo count) (h : count ≤ m) (hlt : count < n)
    (first : Fin n) (old : Vector ℝ n) : Normalized (fresh B count h first old) :=
  normalized_scale_recip (norm_fresh_pos hB h hlt first old).ne'

theorem dotProduct_fresh_col (hB : B.OrthonormalUpTo count) (h : count ≤ m) (first : Fin n)
    (old : Vector ℝ n) {j : Fin m} (hj : j.val < count) :
    (fresh B count h first old).get ⬝ᵥ (B.col j).get = 0 := by
  unfold fresh
  rw [get_scale_eq_smul, smul_dotProduct, orthogonalize_eq_project hB,
    dotProduct_project_col hB h _ hj, smul_zero]

/-! ## Steps -/

section Rests

variable {α : Type} [Scalar α]

/-- What step `j` leaves of the image of its column. -/
def imageRest (G : Mat α n n) (K : Krylov α n m) (j : Fin m) : Vector α n :=
  orthogonalize K.basis (j + 1) j.isLt (G.transform 1 (K.basis.col j) 0 K.image)

/-- What it leaves of the coordinate direction that replaces the image. -/
def freshRest (K : Krylov α n m) (first : Fin n) (j : Fin m) (hj : j.val + 1 < m) : Vector α n :=
  orthogonalize K.basis (j + 1) j.isLt (coordinateOver (K.basis.col ⟨j.val + 1, hj⟩)
    (leastCovered K.basis (j + 1) j.isLt first))

theorem fresh_eq_scale (K : Krylov α n m) (first : Fin n) (j : Fin m) (hj : j.val + 1 < m) :
    fresh K.basis (j + 1) j.isLt first (K.basis.col ⟨j.val + 1, hj⟩)
      = scale (recip (norm (K.freshRest first j hj))) (K.freshRest first j hj) := rfl

variable {G : Mat α n n} {tiny : α} {first : Fin n} {K : Krylov α n m} {j : Fin m}

theorem diag_extend : (K.extend G tiny first j).diag = Vec.setEntry K.diag j
    (inner (G.transform 1 (K.basis.col j) 0 K.image) (K.basis.col j)) := by
  unfold extend
  dsimp only
  split
  · split <;> rfl
  · rfl

theorem image_extend : (K.extend G tiny first j).image = K.imageRest G j := by
  unfold extend
  dsimp only
  split
  · split <;> rfl
  · rfl

/-- The next column is what is left of the image, divided by its norm, -/
theorem basis_extend_of_lt (hj : j.val + 1 < m) (hb : tiny < norm (K.imageRest G j)) :
    (K.extend G tiny first j).basis = K.basis.setCol ⟨j.val + 1, hj⟩
      (scale (recip (norm (K.imageRest G j))) (K.imageRest G j)) := by
  rw [imageRest] at hb ⊢
  unfold extend
  dsimp only
  rw [dif_pos hj, if_pos hb]

/-- or, if that counts as zero, what is left of a coordinate direction, divided by its norm. -/
theorem basis_extend_of_not_lt (hj : j.val + 1 < m) (hb : ¬tiny < norm (K.imageRest G j)) :
    (K.extend G tiny first j).basis = K.basis.setCol ⟨j.val + 1, hj⟩
      (scale (recip (norm (K.freshRest first j hj))) (K.freshRest first j hj)) := by
  rw [imageRest] at hb
  rw [← fresh_eq_scale]
  unfold extend
  dsimp only
  rw [dif_pos hj, if_neg hb]

/-- The last step has no room for another column. -/
theorem basis_extend_last (hj : ¬j.val + 1 < m) :
    (K.extend G tiny first j).basis = K.basis := by
  unfold extend
  dsimp only
  rw [dif_neg hj]

/-- The columns so far are left as they are. -/
theorem col_extend_of_le {c : Fin m} (hc : c ≤ j) :
    (K.extend G tiny first j).basis.col c = K.basis.col c := by
  by_cases hj : j.val + 1 < m
  · have hne : c ≠ ⟨j.val + 1, hj⟩ := fun he => (Nat.lt_succ_iff.2 hc).ne (congrArg Fin.val he)
    by_cases hb : tiny < norm (K.imageRest G j)
    · rw [basis_extend_of_lt hj hb, Mat.col_setCol_of_ne _ hne]
    · rw [basis_extend_of_not_lt hj hb, Mat.col_setCol_of_ne _ hne]
  · rw [basis_extend_last hj]

end Rests

/-- The coupling is the norm of what is left of the image, and zero if that counts as zero. The last
step makes this comparison the other way round. -/
theorem coupling_extend {G : Mat ℝ n n} {tiny : ℝ} {first : Fin n} {K : Krylov ℝ n m} {j : Fin m} :
    (K.extend G tiny first j).coupling = Vec.setEntry K.coupling j
      (if tiny < norm (K.imageRest G j) then norm (K.imageRest G j) else 0) := by
  simp only [imageRest, ← not_le, ite_not]
  unfold extend
  dsimp only
  split
  · split
    · rename_i hb
      rw [if_neg (not_le.2 hb)]
    · rename_i hb
      rw [if_pos (not_lt.1 hb)]
  · rfl

/-! ## The whole basis -/

/-- One step makes one more orthonormal vector, if there is room for it. -/
theorem orthonormalUpTo_extend {G : Mat ℝ n n} {tiny : ℝ} (htiny : 0 ≤ tiny) (hmn : m ≤ n)
    {first : Fin n} (j : Fin m) (K : Krylov ℝ n m) (hK : K.basis.OrthonormalUpTo (j + 1)) :
    (K.extend G tiny first j).basis.OrthonormalUpTo (j + 1 + 1) := by
  by_cases hroom : j.val + 1 < m
  · by_cases hb : tiny < norm (K.imageRest G j)
    · rw [basis_extend_of_lt hroom hb]
      refine hK.setCol hroom (normalized_scale_recip (htiny.trans_lt hb).ne') fun i hi => ?_
      rw [get_scale_eq_smul, smul_dotProduct, imageRest, orthogonalize_eq_project hK,
        dotProduct_project_col hK _ _ hi, smul_zero]
    · rw [basis_extend_of_not_lt hroom hb, ← fresh_eq_scale]
      exact hK.setCol hroom (normalized_fresh hK _ (hroom.trans_le hmn) _ _)
        fun i hi => dotProduct_fresh_col hK _ _ _ hi
  · rw [basis_extend_last hroom]
    exact hK.of_ge (not_lt.1 hroom) _

/-- The regions after the first `j` steps of `build`. -/
def buildUpTo {α : Type} [Scalar α] (G : Mat α n n) (tiny : α) (hm : 0 < m) (hmn : m ≤ n)
    (v : Vector α n) (K : Krylov α n m) (j : ℕ) (hj : j ≤ m) : Krylov α n m :=
  Fin.foldl j (fun K i => K.extend G tiny ⟨0, dim_pos_of_le hm hmn⟩ (i.castLE hj))
    { K with basis := K.basis.setCol ⟨0, hm⟩ v }

theorem buildUpTo_succ {α : Type} [Scalar α] (G : Mat α n n) (tiny : α) (hm : 0 < m) (hmn : m ≤ n)
    (v : Vector α n) (K : Krylov α n m) (j : Fin m) :
    K.buildUpTo G tiny hm hmn v (j + 1) j.isLt
      = (K.buildUpTo G tiny hm hmn v j j.isLt.le).extend G tiny ⟨0, dim_pos_of_le hm hmn⟩ j := by
  unfold buildUpTo
  rw [Fin.foldl_succ_last]
  rfl

section Steps

variable {G : Mat ℝ n n} {tiny : ℝ} (htiny : 0 ≤ tiny) (hm : 0 < m) (hmn : m ≤ n) {v : Vector ℝ n}
  (hv : Normalized v) (K : Krylov ℝ n m)

include htiny hv

theorem orthonormalUpTo_buildUpTo (j : ℕ) (hj : j ≤ m) :
    (K.buildUpTo G tiny hm hmn v j hj).basis.OrthonormalUpTo (j + 1) :=
  foldl_invariant (fun i (K : Krylov ℝ n m) => K.basis.OrthonormalUpTo (i + 1))
    (Mat.OrthonormalUpTo.setCol_zero hv hm)
    fun i K => orthonormalUpTo_extend htiny hmn (i.castLE hj) K

theorem orthonormalColumns_build : (K.build G tiny hm hmn v).basis.OrthonormalColumns :=
  (orthonormalUpTo_buildUpTo htiny hm hmn hv K m le_rfl).orthonormalColumns (Nat.le_succ m)

end Steps

/-- The combination of orthonormal vectors with coefficients of norm one has norm one already before
it is divided by its norm. -/
theorem normalized_transform {B : Mat ℝ n m} (hB : B.OrthonormalColumns) {s : Vector ℝ m}
    (hs : Normalized s) (old : Vector ℝ n) : Normalized (B.transform 1 s 0 old) := by
  rw [Normalized, Mat.get_transform_eq_mulVec, hB.dotProduct_mulVec]
  exact hs

theorem combine_eq_scale {α : Type} [Scalar α] (K : Krylov α n m) (s : Vector α m)
    (old : Vector α n) : K.combine s old
      = scale (recip (norm (K.basis.transform 1 s 0 old))) (K.basis.transform 1 s 0 old) := rfl

theorem get_combine {K : Krylov ℝ n m} (hK : K.basis.OrthonormalColumns) {s : Vector ℝ m}
    (hs : Normalized s) (old : Vector ℝ n) :
    (K.combine s old).get = K.basis.toMatrix *ᵥ s.get := by
  rw [combine_eq_scale, (normalized_transform hK hs old).norm_eq_one, recip_eq, inv_one,
    get_scale_eq_smul, one_smul, Mat.get_transform_eq_mulVec]

theorem normalized_combine {K : Krylov ℝ n m} (hK : K.basis.OrthonormalColumns)
    {s : Vector ℝ m} (hs : Normalized s) (old : Vector ℝ n) : Normalized (K.combine s old) := by
  rw [Normalized, get_combine hK hs, hK.dotProduct_mulVec]
  exact hs

end Krylov

end Spectrahedron
