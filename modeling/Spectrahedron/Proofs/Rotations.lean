import Spectrahedron.Proofs.Similarity

/-!
# The cyclic Jacobi method ends

A rotation that annihilates the entry `d` takes exactly `2 d²` from the sum of the squares off the
diagonal and adds it to the squares on the diagonal; the Frobenius norm stays as it is. An entry is
annihilated only when its square exceeds a fixed part of the square of the norm. So there is a limit
to the number of rotations, and since every sweep but the last one rotates, to the number of sweeps.

**Theorem (`eigen_ends`).** There are fewer than `1 / 2 ε²` rotations, and the method
converges whenever more sweeps than that are allowed.
-/

namespace Spectrahedron

open Scalar Matrix

variable {n : ℕ}

/-! ## The part off the diagonal -/

namespace Mat

/-- The sum of the squares of the entries on the diagonal. -/
noncomputable def onDiagonal (A : Mat ℝ n n) : ℝ := ∑ i, A.get i i ^ 2

/-- The sum of the squares of the entries off the diagonal. -/
noncomputable def offDiagonal (A : Mat ℝ n n) : ℝ := ∑ i, ∑ j, if i = j then 0 else A.get i j ^ 2

theorem offDiagonal_nonneg (A : Mat ℝ n n) : 0 ≤ A.offDiagonal := by
  refine Finset.sum_nonneg fun i _ => Finset.sum_nonneg fun j _ => ?_
  split
  · exact le_rfl
  · exact sq_nonneg _

theorem onDiagonal_nonneg (A : Mat ℝ n n) : 0 ≤ A.onDiagonal :=
  Finset.sum_nonneg fun _ _ => sq_nonneg _

theorem norm_sq_eq_add (A : Mat ℝ n n) : A.norm ^ 2 = A.onDiagonal + A.offDiagonal := by
  rw [norm_sq_eq_frobenius, onDiagonal, offDiagonal, ← Finset.sum_add_distrib]
  refine Finset.sum_congr rfl fun i _ => ?_
  have hrow : ∀ j, A.get i j * A.get i j
      = (if i = j then A.get i j ^ 2 else 0) + (if i = j then 0 else A.get i j ^ 2) := by
    intro j
    split <;> simp [sq]
  simp only [hrow, Finset.sum_add_distrib, Finset.sum_ite_eq, Finset.mem_univ, if_true]

end Mat

/-! ## One rotation -/

namespace Rotation

/-- The squares of the two diagonal entries grow by twice the square of the annihilated one. -/
theorem sq_add_sq_of_annihilates {q : Rotation ℝ} (hq : q.Proper) {a b d : ℝ}
    (h : q.Annihilates a b d) :
    (q.cos * q.cos * a + q.sin * q.sin * b - two * q.cos * q.sin * d) ^ 2
        + (q.sin * q.sin * a + q.cos * q.cos * b + two * q.cos * q.sin * d) ^ 2
      = a ^ 2 + b ^ 2 + 2 * d ^ 2 := by
  unfold Proper at hq
  unfold Annihilates at h
  rw [two_eq]
  generalize q.cos = c at *
  generalize q.sin = s at *
  -- The trace and the determinant of the block of the two coordinates stay as they are.
  have htrace : (c * c * a + s * s * b - 2 * c * s * d) + (s * s * a + c * c * b + 2 * c * s * d)
      = a + b := by
    linear_combination (a + b) * hq
  have hdet : (c * c * a + s * s * b - 2 * c * s * d) * (s * s * a + c * c * b + 2 * c * s * d)
      = a * b - d ^ 2 := by
    linear_combination (c * s * (a - b) + (c * c - s * s) * d) * h
      + (a * b - d ^ 2) * (c * c + s * s + 1) * hq
  linear_combination (c * c * a + s * s * b - 2 * c * s * d
    + (s * s * a + c * c * b + 2 * c * s * d) + a + b) * htrace - 2 * hdet

/-- Only the diagonal entries `i` and `j` change. -/
theorem onDiagonal_conjugate {q : Rotation ℝ} (hq : q.Proper) {i j : Fin n} (hij : i ≠ j)
    {X : Mat ℝ n n} (h : q.Annihilates (X.get i i) (X.get j j) (X.get i j)) :
    (q.conjugate i j X).onDiagonal = X.onDiagonal + 2 * X.get i j ^ 2 := by
  have hrest : ∀ k, k ≠ i ∧ k ≠ j → (q.conjugate i j X).get k k ^ 2 - X.get k k ^ 2 = 0 := by
    rintro k ⟨hki, hkj⟩
    simp only [conjugate, Mat.get_ofFn, if_neg hki, if_neg hkj, sub_self]
  have hblock := sq_add_sq_of_annihilates hq h
  have hsum : (q.conjugate i j X).onDiagonal - X.onDiagonal = 2 * X.get i j ^ 2 := by
    rw [Mat.onDiagonal, Mat.onDiagonal, ← Finset.sum_sub_distrib,
      Fintype.sum_eq_add i j hij hrest]
    simp only [conjugate, Mat.get_ofFn, if_true, if_neg hij.symm]
    linear_combination hblock
  linear_combination hsum

end Rotation

namespace Diagonalization

/-- The annihilated entry is zero. -/
theorem get_rotate {α : Type} [Scalar α] (s : Diagonalization α n) {i j : Fin n} (hij : i ≠ j) :
    (s.rotate i j).mat.get i j = 0 := by
  simp only [rotate, Rotation.conjugate, Mat.get_ofFn, if_true, if_neg hij.symm]

/-- **One rotation.** The squares off the diagonal lose twice that of the annihilated entry. -/
theorem Writes.offDiagonal_rotate {A : Mat ℝ n n} (hA : A.toMatrix.IsSymm)
    {s : Diagonalization ℝ n} (h : s.Writes A) {i j : Fin n} (hij : i < j)
    (hd : s.mat.get i j ≠ 0) :
    (s.rotate i j).mat.offDiagonal = s.mat.offDiagonal - 2 * s.mat.get i j ^ 2 := by
  have hnorm : (s.rotate i j).mat.norm = s.mat.norm :=
    (h.rotate hA hij hd).norm_eq.trans h.norm_eq.symm
  have hdiag : (s.rotate i j).mat.onDiagonal = s.mat.onDiagonal + 2 * s.mat.get i j ^ 2 :=
    Rotation.onDiagonal_conjugate (Rotation.proper_annihilating _ _ _) hij.ne
      (Rotation.annihilates_annihilating _ _ hd)
  have hbefore := s.mat.norm_sq_eq_add
  have hafter := (s.rotate i j).mat.norm_sq_eq_add
  rw [hnorm, hdiag] at hafter
  linarith

end Diagonalization

/-! ## Sequences of rotations -/

namespace Diagonalization

section Count

variable {α : Type} [Scalar α] {tol sqNorm : α}

/-- The states that `k` rotations from `s₀` lead to, each of them in a significant entry above the
diagonal. -/
inductive Rotates (tol sqNorm : α) (s₀ : Diagonalization α n) : ℕ → Diagonalization α n → Prop
  | start : Rotates tol sqNorm s₀ 0 s₀
  | step {k : ℕ} {s : Diagonalization α n} {i j : Fin n} :
      Rotates tol sqNorm s₀ k s → i < j → significant tol sqNorm s.mat i j →
      Rotates tol sqNorm s₀ (k + 1) (s.rotate i j)

/-- The number of rotations in one visit of each of a list of pairs. -/
def rotationsAlong (tol sqNorm : α) : List (Fin n × Fin n) → Diagonalization α n → ℕ
  | [], _ => 0
  | p :: ps, s =>
    if significant tol sqNorm s.mat p.1 p.2 then
      rotationsAlong tol sqNorm ps (s.rotate p.1 p.2) + 1
    else rotationsAlong tol sqNorm ps s

/-- The number of rotations in at most the given number of sweeps. -/
def rotations (tol sqNorm : α) : ℕ → Diagonalization α n → ℕ
  | 0, _ => 0
  | k + 1, s =>
    rotationsAlong tol sqNorm (pairs n) s +
      if (sweep tol sqNorm s).2 = true then rotations tol sqNorm k (sweep tol sqNorm s).1 else 0

theorem Rotates.foldl_visit {s₀ s : Diagonalization α n} {k : ℕ} (h : Rotates tol sqNorm s₀ k s)
    {ps : List (Fin n × Fin n)} (hps : ∀ p ∈ ps, p.1 < p.2) (rotated : Bool) :
    Rotates tol sqNorm s₀ (k + rotationsAlong tol sqNorm ps s)
      (ps.foldl (visit tol sqNorm) (s, rotated)).1 := by
  induction ps generalizing s k rotated with
  | nil => exact h
  | cons p ps ih =>
    obtain ⟨hp, hps⟩ := List.forall_mem_cons.1 hps
    rw [List.foldl_cons, visit, rotationsAlong]
    by_cases hsig : significant tol sqNorm s.mat p.1 p.2
    · rw [if_pos hsig, if_pos hsig, Nat.add_comm (rotationsAlong ..), ← Nat.add_assoc]
      exact ih (h.step hp hsig) hps true
    · rw [if_neg hsig, if_neg hsig]
      exact ih h hps rotated

/-- The flag of a sweep says whether there was a rotation. -/
theorem foldl_visit_eq_true_iff (ps : List (Fin n × Fin n)) (s : Diagonalization α n)
    (rotated : Bool) :
    (ps.foldl (visit tol sqNorm) (s, rotated)).2 = true ↔
      rotated = true ∨ 0 < rotationsAlong tol sqNorm ps s := by
  induction ps generalizing s rotated with
  | nil => simp [rotationsAlong]
  | cons p ps ih =>
    rw [List.foldl_cons, visit, rotationsAlong]
    by_cases hsig : significant tol sqNorm s.mat p.1 p.2
    · rw [if_pos hsig, if_pos hsig, ih]
      simp
    · rw [if_neg hsig, if_neg hsig, ih]

theorem sweeps_succ (k : ℕ) (s : Diagonalization α n) :
    sweeps tol sqNorm (k + 1) s =
      if (sweep tol sqNorm s).2 = true then sweeps tol sqNorm k (sweep tol sqNorm s).1
      else (true, (sweep tol sqNorm s).1) := by
  rw [sweeps]
  rcases sweep tol sqNorm s with ⟨s', _ | _⟩ <;> rfl

theorem Rotates.sweeps {s₀ s : Diagonalization α n} {l : ℕ} (h : Rotates tol sqNorm s₀ l s)
    (k : ℕ) :
    Rotates tol sqNorm s₀ (l + rotations tol sqNorm k s) (sweeps tol sqNorm k s).2 := by
  induction k generalizing s l with
  | zero => exact h
  | succ k ih =>
    have hsweep : Rotates tol sqNorm s₀ (l + rotationsAlong tol sqNorm (pairs n) s)
        (sweep tol sqNorm s).1 := h.foldl_visit (fun _ => mem_pairs.1) false
    rw [sweeps_succ, rotations, ← Nat.add_assoc]
    split
    · exact ih hsweep
    · exact hsweep

/-- Every sweep rotates, as long as the method has not converged. -/
theorem le_rotations_of_not_converged {k : ℕ} {s : Diagonalization α n}
    (h : (Diagonalization.sweeps tol sqNorm k s).1 = false) : k ≤ rotations tol sqNorm k s := by
  induction k generalizing s with
  | zero => exact Nat.zero_le _
  | succ k ih =>
    rw [sweeps_succ] at h
    rw [rotations]
    split at h
    · rename_i hrotated
      have hone : 0 < rotationsAlong tol sqNorm (pairs n) s := by
        rcases (foldl_visit_eq_true_iff (pairs n) s false).1 hrotated with hfalse | hpos
        · cases hfalse
        · exact hpos
      rw [if_pos hrotated]
      have hrest := ih h
      omega
    · cases h

end Count

variable {A : Mat ℝ n n} (hA : A.toMatrix.IsSymm) {tol sqNorm : ℝ} {s₀ s : Diagonalization ℝ n}
  {k : ℕ}

include hA

theorem Rotates.writes (htol : 0 ≤ tol) (hs₀ : s₀.Writes A) (h : Rotates tol sqNorm s₀ k s) :
    s.Writes A := by
  induction h with
  | start => exact hs₀
  | step _ hij hsig ih => exact ih.rotate hA hij (get_ne_zero_of_significant htol hsig)

/-- **The measure.** Every rotation takes more than `2 tol sqNorm` from the squares off the
diagonal. -/
theorem Rotates.offDiagonal_le (htol : 0 ≤ tol) (hs₀ : s₀.Writes A)
    (h : Rotates tol sqNorm s₀ k s) :
    s.mat.offDiagonal + k * (2 * (tol * sqNorm)) ≤ s₀.mat.offDiagonal ∧
      (0 < k → s.mat.offDiagonal + k * (2 * (tol * sqNorm)) < s₀.mat.offDiagonal) := by
  induction h with
  | start => simp
  | @step k s i j hreach hij hsig ih =>
    have hd : s.mat.get i j ≠ 0 := get_ne_zero_of_significant htol hsig
    have hrotate := (hreach.writes hA htol hs₀).offDiagonal_rotate hA hij hd
    have hlarge : tol * sqNorm < s.mat.get i j ^ 2 := by
      rw [sq]
      exact hsig.2
    have hlt : (s.rotate i j).mat.offDiagonal + (k + 1 : ℕ) * (2 * (tol * sqNorm))
        < s₀.mat.offDiagonal := by
      rw [hrotate]
      push_cast
      linarith [ih.1]
    exact ⟨hlt.le, fun _ => hlt⟩

end Diagonalization

/-! ## The decomposition -/

namespace Diagonalization

variable {A : Mat ℝ n n} {epsZero : ℝ} {k : ℕ} {s : Diagonalization ℝ n}

/-- There are fewer than `1 / 2 ε²` rotations. -/
theorem lt_of_rotates (hA : A.toMatrix.IsSymm) (heps : 0 < epsZero)
    (h : Rotates (epsZero * epsZero) (sumSquares A.data) (start A) k s) :
    (k : ℝ) < 1 / (2 * epsZero ^ 2) := by
  have hsq : 0 < 2 * epsZero ^ 2 := mul_pos two_pos (pow_pos heps 2)
  rcases Nat.eq_zero_or_pos k with rfl | hk
  · rw [Nat.cast_zero]
    exact one_div_pos.2 hsq
  · have hmeasure := (h.offDiagonal_le hA (mul_self_nonneg _) (writes_start A)).2 hk
    have hrest := s.mat.offDiagonal_nonneg
    have hwhole : A.offDiagonal ≤ A.norm ^ 2 := by
      rw [A.norm_sq_eq_add]
      exact le_add_of_nonneg_left A.onDiagonal_nonneg
    rw [A.sumSquares_data] at hmeasure
    have hlt : k * (2 * epsZero ^ 2) * A.norm ^ 2 < 1 * A.norm ^ 2 := by
      calc k * (2 * epsZero ^ 2) * A.norm ^ 2
          ≤ s.mat.offDiagonal + k * (2 * (epsZero * epsZero * A.norm ^ 2)) := by linarith
        _ < A.offDiagonal := hmeasure
        _ ≤ 1 * A.norm ^ 2 := by rwa [one_mul]
    rw [lt_div_iff₀ hsq]
    exact lt_of_mul_lt_mul_right hlt (sq_nonneg _)

/-- No state is rotated into itself. -/
theorem not_rotates_self (hA : A.toMatrix.IsSymm) (hs : s.Writes A) (hk : 0 < k) :
    ¬Rotates (epsZero * epsZero) (sumSquares A.data) s k s := by
  intro h
  have hmeasure := (h.offDiagonal_le hA (mul_self_nonneg _) hs).2 hk
  have hpos : 0 ≤ (k : ℝ) * (2 * (epsZero * epsZero * sumSquares A.data)) := by
    rw [A.sumSquares_data]
    exact mul_nonneg k.cast_nonneg
      (mul_nonneg zero_le_two (mul_nonneg (mul_self_nonneg _) (sq_nonneg _)))
  linarith

theorem rotates_eigen (A : Mat ℝ n n) (epsZero : ℝ) (maxSweeps : ℕ) :
    Rotates (epsZero * epsZero) (sumSquares A.data) (start A)
      (rotations (epsZero * epsZero) (sumSquares A.data) maxSweeps (start A))
      (A.eigen epsZero maxSweeps).toDiagonalization := by
  have h := Rotates.sweeps (.start : Rotates (epsZero * epsZero) (sumSquares A.data) (start A) 0 _)
    maxSweeps
  rwa [Nat.zero_add] at h

/-- More sweeps than there can be rotations suffice. -/
theorem converged_of_lt (hA : A.toMatrix.IsSymm) (heps : 0 < epsZero) {maxSweeps : ℕ}
    (h : 1 / (2 * epsZero ^ 2) < maxSweeps) : (A.eigen epsZero maxSweeps).converged = true := by
  by_contra hconv
  have hcount : maxSweeps ≤
      rotations (epsZero * epsZero) (sumSquares A.data) maxSweeps (start A) :=
    le_rotations_of_not_converged (Bool.eq_false_iff.2 hconv)
  have hlt := lt_of_rotates hA heps (rotates_eigen A epsZero maxSweeps)
  have hcast : (maxSweeps : ℝ) ≤ _ := Nat.cast_le.2 hcount
  linarith

end Diagonalization

open Diagonalization

/-- **The method ends.** Along every sequence of rotations of significant entries the state is the
matrix written in its basis; the next rotation makes the entry that it is for zero and takes exactly
twice its square from the squares off the diagonal. So there are fewer than `1 / 2 ε²` rotations,
and none of them lead back to where they began. A run of the method is such a sequence, and
converges if it may take more sweeps than that. -/
theorem eigen_ends {A : Mat ℝ n n} (hA : A.toMatrix.IsSymm) {epsZero : ℝ} (heps : 0 < epsZero) :
    (∀ k s, Rotates (epsZero * epsZero) (sumSquares A.data) (start A) k s →
      s.mat.toMatrix = s.basis.compress A ∧
      (∀ i j, i < j → significant (epsZero * epsZero) (sumSquares A.data) s.mat i j →
        (s.rotate i j).basis.compress A i j = 0 ∧
          (s.rotate i j).mat.offDiagonal = s.mat.offDiagonal - 2 * s.mat.get i j ^ 2) ∧
      (k : ℝ) < 1 / (2 * epsZero ^ 2) ∧
      ∀ l, 0 < l → ¬Rotates (epsZero * epsZero) (sumSquares A.data) s l s) ∧
    ∀ maxSweeps, Rotates (epsZero * epsZero) (sumSquares A.data) (start A)
        (rotations (epsZero * epsZero) (sumSquares A.data) maxSweeps (start A))
        (A.eigen epsZero maxSweeps).toDiagonalization ∧
      (1 / (2 * epsZero ^ 2) < maxSweeps → (A.eigen epsZero maxSweeps).converged = true) := by
  refine ⟨fun k s h => ?_, fun maxSweeps =>
    ⟨rotates_eigen A epsZero maxSweeps, converged_of_lt hA heps⟩⟩
  have hwrites : s.Writes A := h.writes hA (mul_self_nonneg _) (writes_start A)
  refine ⟨hwrites.toMatrix_eq, fun i j hij hsig => ?_, lt_of_rotates hA heps h,
    fun l hl => not_rotates_self hA hwrites hl⟩
  have hd : s.mat.get i j ≠ 0 := get_ne_zero_of_significant (mul_self_nonneg _) hsig
  refine ⟨?_, hwrites.offDiagonal_rotate hA hij hd⟩
  rw [← (hwrites.rotate hA hij hd).toMatrix_eq, Mat.toMatrix_apply, s.get_rotate hij.ne]

/-- The matrix that exchanges two coordinates. -/
noncomputable def exchange : Mat ℝ 2 2 := Mat.ofFn fun r c => if r = c then 0 else 1

theorem isSymm_exchange : exchange.toMatrix.IsSymm := by
  ext r c
  simp only [transpose_apply, Mat.toMatrix_apply, exchange, Mat.get_ofFn, eq_comm]

theorem offDiagonal_exchange : exchange.offDiagonal = 2 := by
  simp [Mat.offDiagonal, exchange, Fin.sum_univ_two, one_add_one_eq_two]

theorem significant_exchange :
    significant (1 / 2 * (1 / 2)) (sumSquares exchange.data) exchange 0 1 := by
  have hdiag : exchange.onDiagonal = 0 := by simp [Mat.onDiagonal, exchange]
  have hnorm : sumSquares exchange.data = 2 := by
    rw [Mat.sumSquares_data, Mat.norm_sq_eq_add, hdiag, offDiagonal_exchange, zero_add]
  have h00 : exchange.get 0 0 = 0 := by simp [exchange]
  have h01 : exchange.get 0 1 = 1 := by simp [exchange]
  unfold significant
  rw [hnorm, h00, h01, zero_mul]
  refine ⟨?_, by norm_num⟩
  show 1 / 2 * (1 / 2) * |(0 : ℝ)| < 1 * 1
  norm_num

/-- With `ε = 1 / 2`, the exchange of two coordinates takes a rotation, which leaves nothing off the
diagonal, and three sweeps suffice for it. -/
theorem exchange_eigen_ends :
    (exchange.toMatrix.IsSymm ∧ (0 : ℝ) < 1 / 2) ∧
      significant (1 / 2 * (1 / 2)) (sumSquares exchange.data) exchange 0 1 ∧
      ((start exchange).rotate 0 1).mat.offDiagonal = 0 ∧
      (exchange.eigen (1 / 2) 3).converged = true := by
  have hhalf : (0 : ℝ) < 1 / 2 := one_half_pos
  obtain ⟨hrotates, hruns⟩ := eigen_ends isSymm_exchange hhalf
  have hfirst := ((hrotates 0 _ .start).2.1 0 1 Fin.zero_lt_one significant_exchange).2
  refine ⟨⟨isSymm_exchange, hhalf⟩, significant_exchange, ?_, (hruns 3).2 (by norm_num)⟩
  have hentry : (start exchange).mat.get 0 1 = 1 := by simp [start, exchange]
  have hoff : (start exchange).mat.offDiagonal = 2 := offDiagonal_exchange
  rw [hfirst, hentry, hoff]
  norm_num

end Spectrahedron
