import Spectrahedron.Eigen.Extractor
import Spectrahedron.Proofs.Jacobi
import Spectrahedron.Proofs.Krylov

/-!
# Extractors return unit vectors

The dense extractor returns a column of an orthonormal basis. The Lanczos extractor returns a
combination of orthonormal vectors, whose coefficients are a column of another one. A run of its
restarts that succeeds ends with the first Ritz pair that is accepted. However it ends, the basis of
the last restart is left in the work slice.

**Theorem (`Extractor.normalized_topEig`).** The vector of every extraction that succeeds has norm
one.
-/

namespace Spectrahedron

open Scalar

variable {n m : ℕ}

/-! ## Starting vectors -/

section Starts

variable {α : Type} [Scalar α] {epsZero : α} {v : Vector α n}

theorem normalize_of_lt (h : epsZero < norm v) (hn : 0 < n) :
    normalize epsZero v hn = scale (recip (norm v)) v := if_pos h

theorem normalize_of_not_lt (h : ¬epsZero < norm v) (hn : 0 < n) :
    normalize epsZero v hn = coordinateOver v ⟨0, hn⟩ := if_neg h

end Starts

theorem normalized_normalize {epsZero : ℝ} (heps : 0 ≤ epsZero) (v : Vector ℝ n) (hn : 0 < n) :
    Normalized (normalize epsZero v hn) := by
  by_cases hlt : epsZero < norm v
  · rw [normalize_of_lt hlt]
    exact normalized_scale_recip (heps.trans_lt hlt).ne'
  · rw [normalize_of_not_lt hlt]
    exact normalized_coordinateOver v _

/-! ## The dense extractor -/

namespace Dense

theorem topPair_eq_ok {e : EigenDecomposition ℝ n} {value : ℝ} {v : Vector ℝ n}
    (h : topPair e = .ok (value, v)) : e.converged = true ∧ ∃ i, value = e.values.get i ∧
      (∀ k, e.values.get k ≤ value) ∧ v = e.basis.col i := by
  unfold topPair at h
  split at h
  · rename_i hconv
    split at h
    · rename_i hn
      cases h
      exact ⟨hconv, argmax e.values hn, rfl, get_le_get_argmax e.values hn, rfl⟩
    · cases h
  · cases h

/-- What an extraction that succeeds has read off. -/
theorem exists_of_topEig_ok {d : Dense ℝ} {G : Mat ℝ n n} {vec : Vector ℝ n} {w : Regions ℝ n}
    {value : ℝ} (h : (d.topEig G vec w).outcome = .ok value) :
    (d.decompose G).converged = true ∧ ∃ i, value = (d.decompose G).values.get i ∧
      (∀ k, (d.decompose G).values.get k ≤ value) ∧
      (d.topEig G vec w).vec = (d.decompose G).basis.col i := by
  unfold topEig at h ⊢
  dsimp only at h ⊢
  split at h
  · rename_i value' v hpair
    cases h
    exact topPair_eq_ok hpair
  · cases h

theorem normalized_topEig (d : Dense ℝ) (G : Mat ℝ n n) (vec : Vector ℝ n) (w : Regions ℝ n)
    {value : ℝ} (h : (d.topEig G vec w).outcome = .ok value) :
    Normalized (d.topEig G vec w).vec := by
  obtain ⟨-, i, -, -, hvec⟩ := exists_of_topEig_ok h
  rw [hvec]
  exact (orthonormalColumns_eigen G d.epsZero d.maxSweeps).normalized_col i

end Dense

/-! ## The Lanczos extractor -/

namespace Lanczos

section Runs

variable {α : Type} [Scalar α]

/-- The vector and the regions that a restart begins with, after a number of restarts, from `v₀` and
`K₀` on, whose Ritz pairs were all rejected. -/
inductive Restarted (l : Lanczos α) (G : Mat α n n) (normG tol : α) (hm : 0 < m) (hmn : m ≤ n)
    (v₀ : Vector α n) (K₀ : Krylov α n m) : ℕ → Vector α n → Krylov α n m → Prop
  | start : Restarted l G normG tol hm hmn v₀ K₀ 0 v₀ K₀
  | step {k : ℕ} {v : Vector α n} {K : Krylov α n m} {value residual : α} :
      Restarted l G normG tol hm hmn v₀ K₀ k v K →
      (l.restart G normG hm hmn v K).ritz = some (value, residual) → ¬residual ≤ tol * normG →
      Restarted l G normG tol hm hmn v₀ K₀ (k + 1) (l.restart G normG hm hmn v K).vec
        (l.restart G normG hm hmn v K).work

/-- The restart number `R` of a run is the first whose Ritz pair is accepted. It gives the run its
value, its vector and its last event. -/
structure EndsAt (l : Lanczos α) (G : Mat α n n) (normG tol : α) (hm : 0 < m) (hmn : m ≤ n)
    (v₀ : Vector α n) (K₀ : Krylov α n m) (value : α) (run : Extraction α n (Krylov α n m)) (R : ℕ)
    (v : Vector α n) (K : Krylov α n m) (residual : α) : Prop where
  restarted : l.Restarted G normG tol hm hmn v₀ K₀ R v K
  ritz : (l.restart G normG hm hmn v K).ritz = some (value, residual)
  residual_le : residual ≤ tol * normG
  vec : run.vec = (l.restart G normG hm hmn v K).vec
  last : run.events.back? = some (.restart R m (.ok value) residual)

variable {l : Lanczos α} {G : Mat α n n} {normG tol value : α} {hm : 0 < m} {hmn : m ≤ n}
  {v₀ v : Vector α n} {K₀ K : Krylov α n m} {k : ℕ}

/-- The vector and the regions are determined by the number of restarts. -/
theorem Restarted.unique (h : l.Restarted G normG tol hm hmn v₀ K₀ k v K) {v' : Vector α n}
    {K' : Krylov α n m} (h' : l.Restarted G normG tol hm hmn v₀ K₀ k v' K') : v' = v ∧ K' = K := by
  induction h generalizing v' K' with
  | start =>
    cases h'
    exact ⟨rfl, rfl⟩
  | step _ _ _ ih =>
    cases h' with
    | step h' _ _ =>
      obtain ⟨rfl, rfl⟩ := ih h'
      exact ⟨rfl, rfl⟩

/-- A run that succeeds ends at one of the restarts that are left. -/
theorem Restarted.exists_endsAt (hv : l.Restarted G normG tol hm hmn v₀ K₀ k v K) {left : ℕ}
    {events : Array (Event α)}
    (h : (l.restarts G normG tol hm hmn left k v K events).outcome = .ok value) :
    ∃ R < k + left, ∃ v' K' residual, l.EndsAt G normG tol hm hmn v₀ K₀ value
      (l.restarts G normG tol hm hmn left k v K events) R v' K' residual := by
  induction left generalizing k v K events with
  | zero => cases h
  | succ left ih =>
    unfold restarts at h ⊢
    dsimp only at h ⊢
    split at h
    · cases h
    · rename_i value' residual hritz
      split at h
      · rename_i haccept
        cases h
        rw [if_pos haccept]
        exact ⟨k, by omega, v, K, residual, hv, hritz, haccept, rfl, Array.back?_push⟩
      · rename_i hreject
        rw [if_neg hreject]
        obtain ⟨R, hR, hends⟩ := ih (.step hv hritz hreject) h
        exact ⟨R, by omega, hends⟩

/-- A run goes on from every restart that rejections lead to. -/
theorem Restarted.exists_restarts_eq (h : l.Restarted G normG tol hm hmn v₀ K₀ k v K) (left : ℕ)
    (events : Array (Event α)) :
    ∃ events', l.restarts G normG tol hm hmn (k + left) 0 v₀ K₀ events
      = l.restarts G normG tol hm hmn left k v K events' := by
  induction h generalizing left with
  | start => exact ⟨events, by rw [Nat.zero_add]⟩
  | @step k v K value residual _ hritz hreject ih =>
    obtain ⟨events', hrun⟩ := ih (left + 1)
    have hleft : k + 1 + left = k + (left + 1) := by omega
    rw [hleft, hrun, restarts]
    simp only [hritz, if_neg hreject]
    exact ⟨_, rfl⟩

/-- It succeeds there if the Ritz pair is accepted. -/
theorem Restarted.restarts_eq_ok (h : l.Restarted G normG tol hm hmn v₀ K₀ k v K) {residual : α}
    (hritz : (l.restart G normG hm hmn v K).ritz = some (value, residual))
    (haccept : residual ≤ tol * normG) {maxIter : ℕ} (hk : k ≤ maxIter) :
    (l.restarts G normG tol hm hmn (maxIter + 1) 0 v₀ K₀ #[]).outcome = .ok value := by
  obtain ⟨left, rfl⟩ := Nat.exists_eq_add_of_le hk
  obtain ⟨events, hrun⟩ := h.exists_restarts_eq (left + 1) #[]
  rw [Nat.add_assoc, hrun, restarts]
  simp only [hritz, if_pos haccept]

end Runs

section Restarts

variable (l : Lanczos ℝ) (G : Mat ℝ n n) (normG tol : ℝ) (hm : 0 < m) (hmn : m ≤ n)

/-- The basis that a restart builds from a vector. -/
noncomputable def basisFrom (v : Vector ℝ n) (K : Krylov ℝ n m) : Krylov ℝ n m :=
  K.build G (l.epsZero * normG) hm hmn (normalize l.epsZero v (dim_pos_of_le hm hmn))

/-- The decomposition of its tridiagonal matrix. -/
noncomputable def ritzPairs (v : Vector ℝ n) (K : Krylov ℝ n m) : EigenDecomposition ℝ m :=
  (l.basisFrom G normG hm hmn v K).tridiagonal.eigen l.epsZero l.maxIter

variable {l G normG tol hm hmn} {v : Vector ℝ n} {K : Krylov ℝ n m}

theorem orthonormalColumns_basisFrom (hl : 0 ≤ l.epsZero) (hG : 0 ≤ normG) :
    (l.basisFrom G normG hm hmn v K).basis.OrthonormalColumns :=
  Krylov.orthonormalColumns_build (mul_nonneg hl hG) hm hmn (normalized_normalize hl v _) K

/-- A restart leaves this basis behind, with or without a Ritz pair. -/
theorem basis_work_restart :
    (l.restart G normG hm hmn v K).work.basis = (l.basisFrom G normG hm hmn v K).basis := by
  unfold restart
  dsimp only
  split <;> rfl

theorem orthonormalColumns_work_restart (hl : 0 ≤ l.epsZero) (hG : 0 ≤ normG) :
    (l.restart G normG hm hmn v K).work.basis.OrthonormalColumns := by
  rw [basis_work_restart]
  exact orthonormalColumns_basisFrom hl hG

/-- So does a run of restarts, if there is any to be made. -/
theorem orthonormalColumns_work_restarts (hl : 0 ≤ l.epsZero) (hG : 0 ≤ normG) {left : ℕ}
    (hK : left = 0 → K.basis.OrthonormalColumns) (number : ℕ) (events : Array (Event ℝ)) :
    (l.restarts G normG tol hm hmn left number v K events).work.basis.OrthonormalColumns := by
  induction left generalizing number v K events with
  | zero => exact hK rfl
  | succ left ih =>
    have hwork : (l.restart G normG hm hmn v K).work.basis.OrthonormalColumns :=
      orthonormalColumns_work_restart hl hG
    unfold restarts
    dsimp only
    split
    · exact hwork
    · split
      · exact hwork
      · exact ih (fun _ => hwork) _ _

/-- What a restart with a Ritz pair has found. -/
theorem exists_of_restart_eq_some {value residual : ℝ}
    (h : (l.restart G normG hm hmn v K).ritz = some (value, residual)) :
    (l.ritzPairs G normG hm hmn v K).converged = true ∧
      ∃ i, value = (l.ritzPairs G normG hm hmn v K).values.get i ∧
        (∀ k, (l.ritzPairs G normG hm hmn v K).values.get k ≤ value) ∧
        residual = (l.basisFrom G normG hm hmn v K).residual
          ((l.ritzPairs G normG hm hmn v K).basis.col i) hm ∧
        (l.restart G normG hm hmn v K).vec = (l.basisFrom G normG hm hmn v K).combine
          ((l.ritzPairs G normG hm hmn v K).basis.col i)
          (normalize l.epsZero v (dim_pos_of_le hm hmn)) := by
  unfold restart at h ⊢
  dsimp only at h ⊢
  split at h
  · rename_i hconv
    rw [if_pos hconv]
    cases h
    exact ⟨hconv, argmax _ hm, rfl, get_le_get_argmax _ hm, rfl, rfl⟩
  · cases h

theorem not_converged_of_restart_eq_none (h : (l.restart G normG hm hmn v K).ritz = none) :
    (l.ritzPairs G normG hm hmn v K).converged = false := by
  unfold restart at h
  dsimp only at h
  split at h
  · cases h
  · rename_i hconv
    exact Bool.eq_false_iff.2 hconv

theorem normalized_restart (hl : 0 ≤ l.epsZero) (hG : 0 ≤ normG) {ritz : ℝ × ℝ}
    (h : (l.restart G normG hm hmn v K).ritz = some ritz) :
    Normalized (l.restart G normG hm hmn v K).vec := by
  obtain ⟨-, i, -, -, -, hvec⟩ := exists_of_restart_eq_some h
  rw [hvec]
  exact Krylov.normalized_combine (orthonormalColumns_basisFrom hl hG)
    ((orthonormalColumns_eigen _ _ _).normalized_col _) _

end Restarts

section Extractions

variable {l : Lanczos ℝ} {G : Mat ℝ n n} {tol value : ℝ} {vec : Vector ℝ n}
  {K : Krylov ℝ n (basisDim l.krylovDim n)}

/-- An extraction from a matrix whose norm is not taken for zero ends at one of its restarts. -/
theorem exists_endsAt_topEig (hn : 0 < n) (hlarge : l.epsZero < G.norm)
    (h : (l.topEig G tol vec K).outcome = .ok value) :
    ∃ R ≤ l.maxIter, ∃ v K' residual, l.EndsAt G G.norm tol (l.basisDim_pos hn) (basisDim_le _ _)
      vec K value (l.topEig G tol vec K) R v K' residual := by
  unfold topEig at h ⊢
  dsimp only at h ⊢
  rw [if_neg (not_le.2 hlarge), topEigNonzero, dif_pos hn] at h ⊢
  obtain ⟨R, hR, hends⟩ := Restarted.exists_endsAt .start h
  exact ⟨R, by omega, hends⟩

/-- It succeeds if some Ritz pair is accepted in time. -/
theorem topEig_eq_ok (hn : 0 < n) (hlarge : l.epsZero < G.norm) {R : ℕ} (hR : R ≤ l.maxIter)
    {v : Vector ℝ n} {K' : Krylov ℝ n (basisDim l.krylovDim n)} {residual : ℝ}
    (h : l.Restarted G G.norm tol (l.basisDim_pos hn) (basisDim_le _ _) vec K R v K')
    (hritz : (l.restart G G.norm (l.basisDim_pos hn) (basisDim_le _ _) v K').ritz
      = some (value, residual)) (haccept : residual ≤ tol * G.norm) :
    (l.topEig G tol vec K).outcome = .ok value := by
  unfold topEig
  dsimp only
  rw [if_neg (not_le.2 hlarge), topEigNonzero, dif_pos hn]
  exact h.restarts_eq_ok hritz haccept hR

/-- An extraction from such a matrix leaves an orthonormal basis in the work slice, however it
ends. -/
theorem orthonormalColumns_work_topEig (hl : 0 ≤ l.epsZero) (hn : 0 < n)
    (hlarge : l.epsZero < G.norm) : (l.topEig G tol vec K).work.basis.OrthonormalColumns := by
  unfold topEig
  dsimp only
  rw [if_neg (not_le.2 hlarge), topEigNonzero, dif_pos hn]
  exact orthonormalColumns_work_restarts hl G.zero_le_norm
    (fun h => absurd h l.maxIter.succ_ne_zero) _ _

/-- What an extraction from a matrix whose norm is taken for zero gives. -/
theorem topEig_of_norm_le (hn : 0 < n) (hsmall : G.norm ≤ l.epsZero) :
    l.topEig G tol vec K = ⟨.ok 0, normalize l.epsZero vec hn, K, #[]⟩ := by
  unfold topEig
  dsimp only
  rw [if_pos hsmall, topEigZero, normalize?, dif_pos hn]

end Extractions

theorem normalized_topEig {l : Lanczos ℝ} (hl : 0 ≤ l.epsZero) (hn : 0 < n) (G : Mat ℝ n n)
    (tol : ℝ) (vec : Vector ℝ n) (K : Krylov ℝ n (basisDim l.krylovDim n)) {value : ℝ}
    (h : (l.topEig G tol vec K).outcome = .ok value) : Normalized (l.topEig G tol vec K).vec := by
  rcases le_or_gt G.norm l.epsZero with hsmall | hlarge
  · rw [topEig_of_norm_le hn hsmall]
    exact normalized_normalize hl vec hn
  · obtain ⟨R, -, v, K', residual, hends⟩ := exists_endsAt_topEig hn hlarge h
    rw [hends.vec]
    exact normalized_restart hl G.zero_le_norm hends.ritz

end Lanczos

/-! ## Both extractors -/

namespace Extractor

/-- The value up to which an extractor takes a norm for zero. -/
def epsZero {α : Type} : Extractor α → α
  | dense d => d.epsZero
  | lanczos l => l.epsZero

theorem epsZero_select {α : Type} [Scalar α] (n lanczosMinDim krylovDim : ℕ) (eps : α)
    (maxIter : ℕ) : (select n lanczosMinDim krylovDim eps maxIter).epsZero = eps := by
  unfold select
  split <;> rfl

/-- **The vector of an extraction has norm one**, whatever the matrix, the tolerance, the starting
vector and the contents of the work slice are. -/
theorem normalized_topEig {e : Extractor ℝ} (he : 0 ≤ e.epsZero) (hn : 0 < n) (G : Mat ℝ n n)
    (tol : ℝ) (vec : Vector ℝ n) (work : Array ℝ) {value : ℝ}
    (h : (e.topEig G tol vec work).outcome = .ok value) :
    Normalized (e.topEig G tol vec work).vec := by
  cases e with
  | dense d =>
    unfold topEig at h ⊢
    dsimp only at h ⊢
    split at h
    · rename_i hfit
      rw [dif_pos hfit]
      exact d.normalized_topEig G vec _ h
    · cases h
  | lanczos l =>
    unfold topEig at h ⊢
    dsimp only at h ⊢
    split at h
    · rename_i hfit
      rw [dif_pos hfit]
      exact Lanczos.normalized_topEig he hn G tol vec _ h
    · cases h

end Extractor

end Spectrahedron
