import Spectrahedron.Proofs.Iterates

/-!
# Convergence of the solver

Let `f` be concave on the spectrahedron with curvature constant `C`, and let `h` be the distance of
`f` at the iterate from its value at some point. An iteration with step size `a` whose direction
misses the largest eigenvalue by `d` takes `h` to at most `(1 - a) h + a d + C a² / 2`. With the
step sizes of the solver, `k (k - 1) h` grows by at most `2 k d + 2 C k / (k + 1)`.

**Theorem (`solve_convergence`).** After `K` iterations, `h` is at most `2 C / (K + 1)` and the
weighted sum of the gaps `d`.
-/

namespace Spectrahedron

open Scalar

variable {n : ℕ}

/-- The gradients of an objective are those of a concave function on the spectrahedron, which a step
of size `a` bends by at most `C a² / 2`. -/
structure Objective.HasCurvature (obj : Objective ℝ n) (f : Mat ℝ n n → ℝ) (C : ℝ) : Prop where
  concave : ∀ {calls X old G Y}, X ∈ spectrahedron n → Y ∈ spectrahedron n →
    obj.gradient calls X old = .ok G → f Y ≤ f X + G.frobenius (Y - X)
  curved : ∀ {calls X old G Y} {a : ℝ}, X ∈ spectrahedron n → Y ∈ spectrahedron n →
    0 ≤ a → a ≤ 1 → obj.gradient calls X old = .ok G →
      f X + a * G.frobenius (Y - X) - C / 2 * a ^ 2 ≤ f (X + a • (Y - X))

namespace FrankWolfe

variable {f : Mat ℝ n n → ℝ} {C : ℝ}

/-! ## One iteration -/

/-- By how much the quadratic form in a direction misses the largest eigenvalue. -/
noncomputable def missing (G : Mat ℝ n n) (v : Vector ℝ n) : ℝ := G.topEigenvalue - G.quadratic v

section Iteration

variable {p : Problem ℝ n} {k : ℕ} {st : State ℝ n} {g : Figures ℝ}

theorem exists_of_symmetricGradient_ok {G : Mat ℝ n n} (h : symmetricGradient p k st = .ok G) :
    ∃ g, p.objective.gradient k st.regions.point st.regions.gradient = .ok g ∧
      G = symmetricPart g := by
  unfold symmetricGradient at h
  split at h
  · cases h
  · rename_i g hg
    split at h
    · cases h
    · rename_i G' hsym
      cases h
      exact ⟨g, hg, eq_symmetricPart_of_symmetrize_ok hsym⟩

theorem missing_nonneg (hp : 0 ≤ p.extractor.epsZero) (hn : 0 < n) {G : Mat ℝ n n} {value : ℝ}
    (hG : symmetricGradient p k st = .ok G) (hext : (extraction p k st G).outcome = .ok value) :
    0 ≤ missing G (extraction p k st G).vec := by
  obtain ⟨g, -, rfl⟩ := exists_of_symmetricGradient_ok hG
  exact sub_nonneg.2 (quadratic_le_topEigenvalue (Mat.isSymm_symmetricPart g)
    (normalized_extraction hp hn hext))

variable (hobj : p.objective.HasCurvature f C) (hp : 0 ≤ p.extractor.epsZero) (hn : 0 < n)
  (hpoint : st.regions.point ∈ spectrahedron n) (hok : (advance p k st).outcome = .ok g)

include hobj hpoint hok in
theorem curvature_nonneg : 0 ≤ C := by
  obtain ⟨G, value, hG, -, -⟩ := exists_of_advance_ok hok
  obtain ⟨g, hg, -⟩ := exists_of_symmetricGradient_ok hG
  have hcurved := hobj.curved hpoint hpoint zero_le_one le_rfl hg
  have hzero : g.frobenius (st.regions.point - st.regions.point) = 0 := by
    rw [Mat.frobenius_sub, sub_self]
  rw [hzero, sub_self, smul_zero, add_zero] at hcurved
  linarith

include hobj hp hn hpoint hok in
/-- **The progress of one iteration.** -/
theorem distance_advance_le {Y : Mat ℝ n n} (hY : Y ∈ spectrahedron n) :
    f Y - f (advance p k st).state.regions.point ≤
      (1 - stepSize k) * (f Y - f st.regions.point) +
        stepSize k * missing (advance p k st).state.regions.gradient
          (advance p k st).state.regions.direction +
        C / 2 * (stepSize k : ℝ) ^ 2 := by
  obtain ⟨G, value, hG, hext, hregions⟩ := exists_of_advance_ok hok
  obtain ⟨g, hg, rfl⟩ := exists_of_symmetricGradient_ok hG
  have hunit : Normalized (extraction p k st (symmetricPart g)).vec :=
    normalized_extraction hp hn hext
  rw [hregions]
  dsimp only [stepped]
  generalize (extraction p k st (symmetricPart g)).vec = v at hunit
  generalize st.regions.point = X at hpoint hg
  have h0 : 0 ≤ (stepSize k : ℝ) := stepSize_nonneg k
  have hconcave : f Y ≤ f X + g.frobenius (Y - X) := hobj.concave hpoint hY hg
  have hcurved : f X + stepSize k * g.frobenius (Mat.rankOne v - X) - C / 2 * stepSize k ^ 2
      ≤ f (move (stepSize k) v X) := by
    rw [move_eq]
    exact hobj.curved hpoint (rankOne_mem hunit) h0 (stepSize_le_one k) hg
  have htop : g.frobenius Y ≤ (symmetricPart g).topEigenvalue := by
    rw [← Mat.frobenius_symmetricPart g (isSymm_of_mem hY)]
    exact frobenius_le_topEigenvalue (Mat.isSymm_symmetricPart g) hY
  have hdirection : g.frobenius (Mat.rankOne v) = (symmetricPart g).quadratic v := by
    rw [← Mat.frobenius_symmetricPart g (isSymm_of_mem (rankOne_mem hunit)), Mat.frobenius_rankOne]
  -- The direction does as well as `Y`, but for what it misses.
  have hgain : f Y - f X - missing (symmetricPart g) v ≤ g.frobenius (Mat.rankOne v - X) := by
    rw [Mat.frobenius_sub] at hconcave ⊢
    unfold missing
    linarith
  have hscaled := mul_le_mul_of_nonneg_left hgain h0
  linarith

end Iteration

/-! ## The weights of the iterations -/

/-- The step sizes of the solver, weighted by the number of the iteration. -/
theorem weighted_distance_le (k : ℕ) {h h' d : ℝ}
    (hstep : h' ≤ (1 - stepSize k) * h + stepSize k * d + C / 2 * (stepSize k : ℝ) ^ 2) :
    ((k + 1 : ℕ) : ℝ) * k * h' ≤ k * (k - 1) * h + 2 * k * d + 2 * C * (k / (k + 1)) := by
  rcases Nat.eq_zero_or_pos k with rfl | hk
  · simp
  · have hk1 : (0 : ℝ) < k + 1 := Nat.cast_add_one_pos k
    have hweight : (0 : ℝ) ≤ (k + 1) * k := mul_nonneg hk1.le (Nat.cast_nonneg k)
    rw [stepSize_eq hk] at hstep
    calc ((k + 1 : ℕ) : ℝ) * k * h' = (k + 1) * k * h' := by rw [Nat.cast_succ]
      _ ≤ (k + 1) * k * ((1 - 2 / (k + 1)) * h + 2 / (k + 1) * d + C / 2 * (2 / (k + 1)) ^ 2) :=
        mul_le_mul_of_nonneg_left hstep hweight
      _ = k * (k - 1) * h + 2 * k * d + 2 * C * (k / (k + 1)) := by
        field_simp
        ring

theorem sum_div_succ_le (K : ℕ) :
    ∑ k ∈ Finset.range K, (k : ℝ) / (k + 1) ≤ K * (K - 1) / (K + 1) := by
  induction K with
  | zero => simp
  | succ K ih =>
    have hK1 : (0 : ℝ) < K + 1 := Nat.cast_add_one_pos K
    have hK2 : (0 : ℝ) < K + 1 + 1 := add_pos hK1 one_pos
    have hK : (0 : ℝ) ≤ K := Nat.cast_nonneg K
    rw [Finset.sum_range_succ, Nat.cast_succ]
    calc ∑ k ∈ Finset.range K, (k : ℝ) / (k + 1) + K / (K + 1)
        ≤ K * (K - 1) / (K + 1) + K / (K + 1) := by linarith
      _ = K ^ 2 / (K + 1) := by
        field_simp
        ring
      _ ≤ (K + 1) * (K + 1 - 1) / (K + 1 + 1) := by
        rw [div_le_div_iff₀ hK1 hK2]
        nlinarith

/-! ## The run -/

/-- By how much the direction of iteration `k` misses the largest eigenvalue of its gradient. -/
noncomputable def Course.gap (c : Course ℝ n) (k : ℕ) : ℝ :=
  match c.gradients[k]?, c.directions[k]? with
  | some G, some v => missing G v
  | _, _ => 0

theorem Course.gap_extend_of_lt {c : Course ℝ n} {k : ℕ} (hG : k < c.gradients.size)
    (hv : k < c.directions.size) (before after : Regions ℝ n) :
    (c.extend before after).gap k = c.gap k := by
  unfold gap extend
  rw [Array.getElem?_push, Array.getElem?_push, if_neg hG.ne, if_neg hv.ne]

theorem Course.gap_extend_self {c : Course ℝ n} {k : ℕ} (hG : c.gradients.size = k)
    (hv : c.directions.size = k) (before after : Regions ℝ n) :
    (c.extend before after).gap k = missing after.gradient after.direction := by
  unfold gap extend
  rw [Array.getElem?_push, Array.getElem?_push, if_pos hG.symm, if_pos hv.symm]

section Run

variable {p : Problem ℝ n} {K : ℕ} {st₀ st : State ℝ n} {c : Course ℝ n}
  (hp : 0 ≤ p.extractor.epsZero) (hn : 0 < n) (hobj : p.objective.HasCurvature f C)
  (hstart : st₀.regions.point ∈ spectrahedron n) (h : Reaches p st₀ K st c)

include h in
theorem Reaches.gap_eq {k : ℕ} (hk : k < K) :
    ∃ st' G value, c.visited[k]? = some st'.regions.point ∧ symmetricGradient p k st' = .ok G ∧
      (extraction p k st' G).outcome = .ok value ∧
      c.gap k = missing G (extraction p k st' G).vec := by
  obtain ⟨st', G, value, hX, hG, hext, hgrad, hdir⟩ := h.recorded hk
  refine ⟨st', G, value, hX, hG, hext, ?_⟩
  unfold Course.gap
  rw [hgrad, hdir]

include hp hn hobj hstart h in
theorem Reaches.curvature_nonneg (hK : 0 < K) : 0 ≤ C := by
  cases h with
  | start => exact absurd hK (Nat.lt_irrefl 0)
  | step hreach hok =>
    exact FrankWolfe.curvature_nonneg hobj (hreach.point_mem hp hn hstart) hok

include hp hn hobj hstart h in
/-- **The invariant of the run.** -/
theorem Reaches.potential_le {Y : Mat ℝ n n} (hY : Y ∈ spectrahedron n) :
    (K : ℝ) * (K - 1) * (f Y - f st.regions.point) ≤
      ∑ k ∈ Finset.range K, (2 * k * c.gap k + 2 * C * ((k : ℝ) / (k + 1))) := by
  induction h with
  | start => simp
  | @step k st c g hreach hok ih =>
    obtain ⟨-, hG, hv⟩ := hreach.size
    have hpoint : st.regions.point ∈ spectrahedron n := hreach.point_mem hp hn hstart
    have hstep := weighted_distance_le k (distance_advance_le hobj hp hn hpoint hok hY)
    have hsum : ∑ i ∈ Finset.range k, (2 * i *
          (c.extend st.regions (advance p k st).state.regions).gap i + 2 * C * ((i : ℝ) / (i + 1)))
        = ∑ i ∈ Finset.range k, (2 * i * c.gap i + 2 * C * ((i : ℝ) / (i + 1))) := by
      refine Finset.sum_congr rfl fun i hi => ?_
      have hik : i < k := Finset.mem_range.1 hi
      rw [Course.gap_extend_of_lt (hik.trans_eq hG.symm) (hik.trans_eq hv.symm)]
    have hcast : ((k + 1 : ℕ) : ℝ) - 1 = k := by rw [Nat.cast_succ, add_sub_cancel_right]
    rw [Finset.sum_range_succ, hsum, Course.gap_extend_self hG hv, hcast]
    linarith

end Run

variable {s : Settings ℝ} {obj : Objective ℝ n} {K : ℕ} {curvature : Option ℝ} {work : Array ℝ}

/-- **The convergence rate.** After `K` iterations the solution is below any point of the
spectrahedron by no more than `2 C / (K + 1)` and the gaps of the directions, weighted by
`2 k / (K (K - 1))`. -/
theorem solve_convergence (hs : 0 ≤ s.epsZero) (hobj : obj.HasCurvature f C) (hK : 2 ≤ K)
    {X : Mat ℝ n n} (h : (solve s obj K curvature work).outcome = .ok X) {Y : Mat ℝ n n}
    (hY : Y ∈ spectrahedron n) :
    (∀ k < K, ∃ st G value,
        (solve s obj K curvature work).trail.visited[k]? = some st.regions.point ∧
        symmetricGradient (problem s obj curvature) k st = .ok G ∧
        (extraction (problem s obj curvature) k st G).outcome = .ok value ∧
        (solve s obj K curvature work).trail.gap k =
          G.topEigenvalue - G.quadratic (extraction (problem s obj curvature) k st G).vec ∧
        0 ≤ (solve s obj K curvature work).trail.gap k) ∧
      f Y - 2 * C / (K + 1) - ∑ k ∈ Finset.Ico 1 K,
        2 * (k : ℝ) / (K * (K - 1)) * (solve s obj K curvature work).trail.gap k ≤ f X := by
  obtain ⟨hwork, st, hn, hreach, rfl⟩ := reaches_of_solve_ok h
  generalize (solve s obj K curvature work).trail.toCourse = c at hreach ⊢
  have hp := zero_le_epsZero_problem hs obj curvature
  have hstart := initialState_mem hs hn (Regions.ofSlice n work hwork)
  refine ⟨?_, ?_⟩
  · intro k hk
    obtain ⟨st', G, value, hX, hG, hext, hgap⟩ := hreach.gap_eq hk
    exact ⟨st', G, value, hX, hG, hext, hgap, hgap ▸ missing_nonneg hp hn hG hext⟩
  have hC : 0 ≤ C := hreach.curvature_nonneg hp hn hobj hstart (Nat.lt_of_lt_of_le Nat.two_pos hK)
  have hpotential := hreach.potential_le hp hn hobj hstart hY
  have hK2 : (2 : ℝ) ≤ K := Nat.ofNat_le_cast.2 hK
  have hweight : (0 : ℝ) < K * (K - 1) := mul_pos (by linarith) (by linarith)
  -- The weights are those of the potential, whose first one is zero.
  have hgaps : ∑ k ∈ Finset.Ico 1 K, 2 * (k : ℝ) / (K * (K - 1)) * c.gap k
      = (∑ k ∈ Finset.range K, 2 * k * c.gap k) / (K * (K - 1)) := by
    rw [Finset.sum_div, Finset.range_eq_Ico,
      Finset.sum_eq_sum_Ico_succ_bot (Nat.lt_of_lt_of_le Nat.two_pos hK), Nat.cast_zero, mul_zero,
      zero_mul, zero_div, zero_add]
    exact Finset.sum_congr rfl fun k _ => div_mul_eq_mul_div _ _ _
  have hbound : f Y - f st.regions.point ≤
      (∑ k ∈ Finset.range K, 2 * k * c.gap k) / (K * (K - 1)) + 2 * C / (K + 1) := by
    refine le_of_mul_le_mul_left ?_ hweight
    calc (K : ℝ) * (K - 1) * (f Y - f st.regions.point)
        ≤ ∑ k ∈ Finset.range K, 2 * k * c.gap k
            + 2 * C * ∑ k ∈ Finset.range K, (k : ℝ) / (k + 1) := by
          rw [Finset.mul_sum, ← Finset.sum_add_distrib]
          exact hpotential
      _ ≤ ∑ k ∈ Finset.range K, 2 * k * c.gap k + 2 * C * (K * (K - 1) / (K + 1)) := by
          have hsum := mul_le_mul_of_nonneg_left (sum_div_succ_le K) (mul_nonneg zero_le_two hC)
          linarith
      _ = K * (K - 1) * ((∑ k ∈ Finset.range K, 2 * k * c.gap k) / (K * (K - 1))
            + 2 * C / (K + 1)) := by
          rw [mul_add, mul_div_cancel₀ _ hweight.ne']
          ring
  rw [hgaps]
  linarith

/-! ## The negated squares of the diagonal -/

theorem sq_sub_le_of_mem {X Y : Mat ℝ n n} (hX : X ∈ spectrahedron n) (hY : Y ∈ spectrahedron n) :
    ∑ i, (Y.get i i - X.get i i) ^ 2 ≤ 2 := by
  have hentry : ∀ {Z : Mat ℝ n n}, Z ∈ spectrahedron n → ∀ i, 0 ≤ Z.get i i ∧ Z.get i i ≤ 1 := by
    intro Z hZ i
    have hnonneg : ∀ j, 0 ≤ Z.get j j := fun j => hZ.1.diag_nonneg
    refine ⟨hnonneg i, ?_⟩
    rw [← hZ.2, Mat.trace_eq]
    exact Finset.single_le_sum (fun j _ => hnonneg j) (Finset.mem_univ i)
  calc ∑ i, (Y.get i i - X.get i i) ^ 2 ≤ ∑ i, (Y.get i i + X.get i i) := by
        refine Finset.sum_le_sum fun i _ => ?_
        obtain ⟨hX0, hX1⟩ := hentry hX i
        obtain ⟨hY0, hY1⟩ := hentry hY i
        nlinarith
    _ = 2 := by
        rw [Finset.sum_add_distrib, ← Mat.trace_eq, ← Mat.trace_eq, hX.2, hY.2]
        norm_num

theorem frobenius_diagonalMatrix (d : Fin n → ℝ) (D : Mat ℝ n n) :
    (Objective.diagonalMatrix d).frobenius D = ∑ i, d i * D.get i i := by
  simp [Mat.frobenius, Objective.diagonalMatrix, ite_mul]

theorem hasCurvature_diagonalSquares :
    (Objective.diagonalSquares : Objective ℝ n).HasCurvature (fun X => -∑ i, X.get i i ^ 2) 4 where
  concave := by
    rintro calls X old _ Y hX hY ⟨⟩
    rw [frobenius_diagonalMatrix, ← Finset.sum_neg_distrib, ← Finset.sum_neg_distrib,
      ← Finset.sum_add_distrib]
    refine Finset.sum_le_sum fun i _ => ?_
    rw [Mat.get_sub, two_eq]
    nlinarith [sq_nonneg (Y.get i i - X.get i i)]
  curved := by
    rintro calls X old _ Y a hX hY h0 h1 ⟨⟩
    have hsq := mul_le_mul_of_nonneg_left (sq_sub_le_of_mem hX hY) (sq_nonneg a)
    have hexpand : -∑ i, (X + a • (Y - X)).get i i ^ 2 =
        -∑ i, X.get i i ^ 2 + a * ∑ i, -two * X.get i i * (Y - X).get i i
          - a ^ 2 * ∑ i, (Y.get i i - X.get i i) ^ 2 := by
      rw [Finset.mul_sum, Finset.mul_sum, ← Finset.sum_neg_distrib, ← Finset.sum_neg_distrib,
        ← Finset.sum_add_distrib, ← Finset.sum_sub_distrib]
      refine Finset.sum_congr rfl fun i _ => ?_
      rw [Mat.get_add, Mat.get_smul, Mat.get_sub, two_eq]
      ring
    rw [frobenius_diagonalMatrix]
    linarith

/-- Three iterations in dimension two, compared with the maximum `-1/2`, which is at half of the
identity matrix. -/
theorem diagonalSquares_convergence :
    (0 ≤ (Settings.default : Settings ℝ).epsZero ∧ 2 ≤ 3 ∧
      (Mat.identity ℝ 2).scale (1 / 2) ∈ spectrahedron 2) ∧
    ∃ X, (squaresRun 3).outcome = .ok X ∧
      -(1 / 2) - 2 * 4 / ((3 : ℕ) + 1) - ∑ k ∈ Finset.Ico (1 : ℕ) 3,
        2 * (k : ℝ) / ((3 : ℕ) * ((3 : ℕ) - 1)) * (squaresRun 3).trail.gap k
        ≤ -∑ i, X.get i i ^ 2 := by
  have heps : 0 ≤ (Settings.default : Settings ℝ).epsZero := (tenToMinus_pos 12).le
  have hmem : (Mat.identity ℝ 2).scale (1 / 2) ∈ spectrahedron 2 := by
    refine ⟨posSemidef_scale ?_ (by norm_num), ?_⟩
    · rw [Mat.toMatrix_identity]
      exact Matrix.PosSemidef.one
    · rw [trace_scale, Mat.trace_eq_trace, Mat.toMatrix_identity, Matrix.trace_one]
      norm_num
  obtain ⟨X, hX⟩ := exists_squaresRun_eq_ok (show 0 < 3 by decide)
  have hrate := (solve_convergence heps hasCurvature_diagonalSquares (by decide) hX hmem).2
  have hvalue : -∑ i, ((Mat.identity ℝ 2).scale (1 / 2)).get i i ^ 2 = -(1 / 2 : ℝ) := by
    norm_num [Fin.sum_univ_two]
  rw [hvalue] at hrate
  exact ⟨⟨heps, by decide, hmem⟩, X, hX, hrate⟩

end FrankWolfe

end Spectrahedron
