import Mathlib.LinearAlgebra.Matrix.Rank
import Spectrahedron.Proofs.Diagonal
import Spectrahedron.Proofs.Points
import Spectrahedron.Proofs.Runs

/-!
# The closed form of the iterates

The step of iteration `k` scales what has been reached so far by `1 - a` and adds `a v vᵀ`. The
steps of the first two iterations are full ones, so each of them forgets everything before; the
later ones have the size `2 / (k + 1)`, by which `k (k - 1) X` grows by just `2 k v vᵀ`.

**Theorem (`solve_eq_sum_rankOne`).** The solution after `K` iterations is the sum of the matrices
`v vᵀ` of the iterations `1, …, K - 1` with the weights `2 k / (K (K - 1))`. Nothing of the starting
point is left in it, and its rank is at most `K - 1`.
-/

namespace Spectrahedron

open Scalar Matrix

variable {n : ℕ}

/-! ## Sums of rank-one matrices -/

theorem Mat.toMatrix_sum {m : ℕ} {ι : Type*} (s : Finset ι) (f : ι → Mat ℝ m n) :
    (∑ i ∈ s, f i).toMatrix = ∑ i ∈ s, (f i).toMatrix :=
  map_sum (entriesEquiv.linearEquiv ℝ) f s

/-- The rank of a combination of matrices `v vᵀ` is at most their number. -/
theorem rank_sum_smul_rankOne_le {ι : Type*} (s : Finset ι) (w : ι → ℝ) (v : ι → Vector ℝ n) :
    (∑ i ∈ s, w i • Mat.rankOne (v i)).toMatrix.rank ≤ s.card := by
  -- The vectors as columns, and their multiples as rows.
  let A : Matrix (Fin n) s ℝ := of fun r i => (v i).get r
  let B : Matrix s (Fin n) ℝ := of fun i c => w i * (v i).get c
  have hfactor : (∑ i ∈ s, w i • Mat.rankOne (v i)).toMatrix = A * B := by
    ext r c
    rw [Mat.toMatrix_sum, Matrix.sum_apply, mul_apply, ← Finset.sum_coe_sort]
    refine Finset.sum_congr rfl fun i _ => ?_
    rw [Mat.toMatrix_smul, Matrix.smul_apply, Mat.toMatrix_rankOne, vecMulVec_apply, smul_eq_mul]
    exact mul_left_comm _ _ _
  calc (∑ i ∈ s, w i • Mat.rankOne (v i)).toMatrix.rank = (A * B).rank := by rw [hfactor]
    _ ≤ A.rank := rank_mul_le_left A B
    _ ≤ Fintype.card s := A.rank_le_card_width
    _ = s.card := Fintype.card_coe s

namespace FrankWolfe

/-! ## One step -/

/-- A full step forgets where it started. -/
theorem move_one (v : Vector ℝ n) (X : Mat ℝ n n) : move 1 v X = Mat.rankOne v := by
  rw [move_eq, one_smul, add_sub_cancel]

theorem stepSize_zero : (stepSize 0 : ℝ) = 1 := by
  rw [stepSize, smaller_eq, two_eq, zero_add, Nat.cast_one, div_one]
  exact min_eq_left one_le_two

/-- The steps of the solver, weighted by the number of the iteration. -/
theorem weighted_move (k : ℕ) (v : Vector ℝ n) (X : Mat ℝ n n) :
    (((k + 1 : ℕ) : ℝ) * k) • move (stepSize k) v X
      = ((k : ℝ) * (k - 1)) • X + (2 * k : ℝ) • Mat.rankOne v := by
  rcases Nat.eq_zero_or_pos k with rfl | hk
  · simp
  · have hk1 : (k : ℝ) + 1 ≠ 0 := (Nat.cast_add_one_pos k).ne'
    rw [stepSize_eq hk, move_eq, Nat.cast_succ]
    match_scalars
    · field_simp
      ring
    · field_simp

/-! ## The run -/

/-- The vector towards which iteration `k` went. -/
noncomputable def Course.direction (c : Course ℝ n) (k : ℕ) : Vector ℝ n :=
  c.directions[k]?.getD (Vector.replicate n 0)

theorem Course.direction_of_getElem? {c : Course ℝ n} {k : ℕ} {v : Vector ℝ n}
    (h : c.directions[k]? = some v) : c.direction k = v := by
  rw [direction, h, Option.getD_some]

theorem Course.direction_extend {c : Course ℝ n} {K : ℕ} (hv : c.directions.size = K)
    (before after : Regions ℝ n) (k : ℕ) :
    (c.extend before after).direction k = if k = K then after.direction else c.direction k := by
  unfold direction extend
  rw [Array.getElem?_push, hv]
  split
  · rfl
  · rfl

section Run

variable {p : Problem ℝ n} {K : ℕ} {st₀ st : State ℝ n} {c : Course ℝ n}

/-- After one iteration. -/
theorem Reaches.point_eq_rankOne (h : Reaches p st₀ 1 st c) :
    st.regions.point = Mat.rankOne (c.direction 0) := by
  cases h with
  | @step _ st c f hreach hok =>
    obtain ⟨-, -, hv⟩ := hreach.size
    obtain ⟨G, value, -, -, hregions⟩ := exists_of_advance_ok hok
    rw [Course.direction_extend hv, if_pos rfl, hregions]
    dsimp only [stepped]
    rw [stepSize_zero, move_one]

/-- **The invariant of the run.** -/
theorem Reaches.weighted_point_eq (h : Reaches p st₀ K st c) :
    ((K : ℝ) * (K - 1)) • st.regions.point
      = ∑ k ∈ Finset.range K, (2 * k : ℝ) • Mat.rankOne (c.direction k) := by
  induction h with
  | start => simp
  | @step k st c f hreach hok ih =>
    obtain ⟨-, -, hv⟩ := hreach.size
    obtain ⟨G, value, -, -, hregions⟩ := exists_of_advance_ok hok
    have hsum : ∑ i ∈ Finset.range k, (2 * i : ℝ) • Mat.rankOne
          ((c.extend st.regions (advance p k st).state.regions).direction i)
        = ∑ i ∈ Finset.range k, (2 * i : ℝ) • Mat.rankOne (c.direction i) := by
      refine Finset.sum_congr rfl fun i hi => ?_
      rw [Course.direction_extend hv, if_neg (Finset.mem_range.1 hi).ne]
    have hcast : ((k + 1 : ℕ) : ℝ) - 1 = k := by rw [Nat.cast_succ, add_sub_cancel_right]
    rw [Finset.sum_range_succ, hsum, Course.direction_extend hv, if_pos rfl, hcast, ← ih, hregions]
    exact weighted_move k _ _

theorem weight_pos (hK : 2 ≤ K) : (0 : ℝ) < K * (K - 1) := by
  have hK2 : (2 : ℝ) ≤ K := Nat.ofNat_le_cast.2 hK
  exact mul_pos (by linarith) (by linarith)

/-- The invariant, solved for the iterate. The first summand has weight zero. -/
theorem Reaches.point_eq_sum (h : Reaches p st₀ K st c) (hK : 2 ≤ K) :
    st.regions.point
      = ∑ k ∈ Finset.Ico 1 K, (2 * (k : ℝ) / (K * (K - 1))) • Mat.rankOne (c.direction k) := by
  have hweight := (weight_pos hK).ne'
  have hsum := h.weighted_point_eq
  rw [Finset.sum_range_eq_add_Ico _ (Nat.lt_of_lt_of_le Nat.two_pos hK), Nat.cast_zero, mul_zero,
    zero_smul, zero_add] at hsum
  calc st.regions.point
      = ((K : ℝ) * (K - 1))⁻¹ • ((K : ℝ) * (K - 1)) • st.regions.point :=
        (inv_smul_smul₀ hweight _).symm
    _ = ∑ k ∈ Finset.Ico 1 K, (2 * (k : ℝ) / (K * (K - 1))) • Mat.rankOne (c.direction k) := by
        rw [hsum, Finset.smul_sum]
        refine Finset.sum_congr rfl fun k _ => ?_
        rw [smul_smul, ← div_eq_inv_mul]

end Run

/-! ## The weights -/

theorem sum_two_mul_range (K : ℕ) : ∑ k ∈ Finset.range K, (2 * k : ℝ) = K * (K - 1) := by
  induction K with
  | zero => simp
  | succ K ih =>
    rw [Finset.sum_range_succ, ih, Nat.cast_succ]
    ring

/-- The weights of the closed form add up to one. -/
theorem sum_weights_eq_one {K : ℕ} (hK : 2 ≤ K) :
    ∑ k ∈ Finset.Ico 1 K, 2 * (k : ℝ) / (K * (K - 1)) = 1 := by
  have hsum := sum_two_mul_range K
  rw [Finset.sum_range_eq_add_Ico _ (Nat.lt_of_lt_of_le Nat.two_pos hK), Nat.cast_zero, mul_zero,
    zero_add] at hsum
  rw [← Finset.sum_div, hsum, div_self (weight_pos hK).ne']

/-! ## Solves -/

variable {s : Settings ℝ} {obj : Objective ℝ n} {K : ℕ} {curvature : Option ℝ} {work : Array ℝ}
  {X : Mat ℝ n n}

theorem iterations_pos_of_solve_ok (h : (solve s obj K curvature work).outcome = .ok X) :
    0 < K := by
  by_contra hK
  have hargs : ¬(0 < n ∧ 0 < K ∧ (∀ c ∈ curvature, 0 < c) ∧ workLength s n ≤ work.size) :=
    fun hargs => hK hargs.2.1
  obtain ⟨⟨e, he⟩, -⟩ := solve_refused hargs
  cases he.symm.trans h

/-- **The closed form of the solution.** A solve by `K` iterations returns the sum of the matrices
`v vᵀ` for the vectors that the extractions of its iterations left, with the weights
`2 k / (K (K - 1))`. The weights are positive and add up to one, and they start with the iteration
one: the starting point and the direction of the iteration zero have no part in the solution, unless
there is no other iteration. So the rank of the solution is at most the number of the iterations,
and less from two iterations on. -/
theorem solve_eq_sum_rankOne (h : (solve s obj K curvature work).outcome = .ok X) :
    (∀ k < K, ∃ st G value,
      (solve s obj K curvature work).trail.visited[k]? = some st.regions.point ∧
      symmetricGradient (problem s obj curvature) k st = .ok G ∧
      (extraction (problem s obj curvature) k st G).outcome = .ok value ∧
      (solve s obj K curvature work).trail.direction k
        = (extraction (problem s obj curvature) k st G).vec) ∧
    (K = 1 → X = Mat.rankOne ((solve s obj K curvature work).trail.direction 0)) ∧
    (2 ≤ K →
      X = ∑ k ∈ Finset.Ico 1 K, (2 * (k : ℝ) / (K * (K - 1))) •
        Mat.rankOne ((solve s obj K curvature work).trail.direction k) ∧
      (∀ k ∈ Finset.Ico 1 K, 0 < 2 * (k : ℝ) / (K * (K - 1))) ∧
      ∑ k ∈ Finset.Ico 1 K, 2 * (k : ℝ) / (K * (K - 1)) = 1) ∧
    X.toMatrix.rank ≤ max 1 (K - 1) ∧ X.toMatrix.rank ≤ K := by
  have hpos := iterations_pos_of_solve_ok h
  obtain ⟨hwork, st, hn, hreach, rfl⟩ := reaches_of_solve_ok h
  generalize (solve s obj K curvature work).trail.toCourse = c at hreach ⊢
  have hrank : st.regions.point.toMatrix.rank ≤ max 1 (K - 1) := by
    rcases Nat.lt_or_ge K 2 with hlt | hK
    · obtain rfl : K = 1 := by omega
      rw [hreach.point_eq_rankOne, Mat.toMatrix_rankOne]
      exact rank_vecMulVec_le _ _
    · rw [hreach.point_eq_sum hK]
      refine (rank_sum_smul_rankOne_le _ _ _).trans ?_
      rw [Nat.card_Ico]
      exact le_max_right _ _
  refine ⟨?_, ?_, ?_, hrank, hrank.trans (by omega)⟩
  · intro k hk
    obtain ⟨st', G, value, hX, hG, hext, -, hdirection⟩ := hreach.recorded hk
    exact ⟨st', G, value, hX, hG, hext, Course.direction_of_getElem? hdirection⟩
  · rintro rfl
    exact hreach.point_eq_rankOne
  · intro hK
    refine ⟨hreach.point_eq_sum hK, fun k hk => ?_, sum_weights_eq_one hK⟩
    have hk1 : (0 : ℝ) < k := Nat.cast_pos.2 (Finset.mem_Ico.1 hk).1
    exact div_pos (mul_pos two_pos hk1) (weight_pos hK)

/-- After three iterations in dimension two, the directions of the iterations one and two have the
weights `1/3` and `2/3`. One iteration gives a matrix of rank one. -/
theorem squaresRun_eq_sum_rankOne :
    (∃ X, (squaresRun 3).outcome = .ok X ∧
      X = (1 / 3 : ℝ) • Mat.rankOne ((squaresRun 3).trail.direction 1)
        + (2 / 3 : ℝ) • Mat.rankOne ((squaresRun 3).trail.direction 2)) ∧
    ∃ X, (squaresRun 1).outcome = .ok X ∧ X = Mat.rankOne ((squaresRun 1).trail.direction 0) ∧
      X.toMatrix.rank ≤ 1 := by
  obtain ⟨X, hX⟩ := exists_squaresRun_eq_ok (show 0 < 3 by decide)
  obtain ⟨Y, hY⟩ := exists_squaresRun_eq_ok (show 0 < 1 by decide)
  refine ⟨⟨X, hX, ?_⟩, Y, hY, ?_⟩
  · have hsum := ((solve_eq_sum_rankOne hX).2.2.1 (by decide)).1
    have hrange : Finset.Ico 1 3 = {1, 2} := by decide
    rw [hrange, Finset.sum_pair (by decide)] at hsum
    norm_num at hsum
    exact hsum
  · obtain ⟨-, hone, -, -, hrank⟩ := solve_eq_sum_rankOne hY
    exact ⟨hone rfl, hrank⟩

end FrankWolfe

end Spectrahedron
