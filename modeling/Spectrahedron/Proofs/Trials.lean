import Mathlib.Data.Nat.Notation
import Spectrahedron.Feasibility.Search

/-!
# Trials of the search

A trial is a run of the solver on the surrogate at one trace scale. It ends as the run does, or
finds that the value or the sensitivity is not finite. The search is one for any way of making
trials; what it returns is a trial that it has accepted.

**Theorem (`exists_of_search_ok`).** A search that returns has made a trial at the scale it returns,
whose value exceeds the negated accuracy.
-/

namespace Spectrahedron

open Scalar

variable {α : Type} [Scalar α]

/-! ## The data of a system -/

omit [Scalar α] in
theorem SquareMatrix.eq_of_dim {A : SquareMatrix α} {n : ℕ} (h : A.dim = n) :
    A = ⟨n, h ▸ A.entries⟩ := by
  subst h
  rfl

namespace ConstraintSystem

variable {dim : ℕ} {matrices : Array (SquareMatrix α)} {bounds : Array α} {eps : α}

/-- The system that is built from data holds the data. -/
theorem data_of_build {system : ConstraintSystem α}
    (h : build dim matrices bounds eps = .ok system) :
    dim = system.dim ∧
      matrices = Array.ofFn (fun i => ⟨system.dim, system.matrices.get i⟩) ∧
      bounds = system.bounds.toArray ∧ eps = system.eps := by
  unfold build at h
  split at h
  · split at h
    · split at h
      · split at h
        · cases h
        · rename_i hfit
          cases h
          refine ⟨rfl, Array.ext (by simp) fun i hi hi' => ?_, rfl, rfl⟩
          rw [Array.getElem_ofFn, Vec.get_ofFn]
          exact SquareMatrix.eq_of_dim (dim_of_misfit?_eq_none hfit ⟨i, hi⟩)
      · cases h
    · cases h
  · cases h

/-- Data that fit together are accepted. -/
theorem exists_build (hdim : 0 < dim) (hcount : 0 < matrices.size)
    (heps : 0 < eps ∧ isFinite eps = true) (hbounds : bounds.size = matrices.size)
    (hfit : ∀ i (h : i < matrices.size), matrices[i].dim = dim) :
    ∃ system, build dim matrices bounds eps = .ok system := by
  have hnone : misfit? dim matrices = none := by
    unfold misfit?
    rw [List.find?_eq_none]
    exact fun i _ => by simpa using hfit i i.isLt
  unfold build
  rw [dif_pos ⟨hdim, hcount⟩, dif_pos heps, dif_pos hbounds]
  split
  · rename_i hsome
    cases hnone.symm.trans hsome
  · exact ⟨_, rfl⟩

theorem iterations_pos (system : ConstraintSystem α) : 0 < system.iterations :=
  Nat.lt_of_lt_of_le Nat.one_pos (Nat.le_max_right _ _)

end ConstraintSystem

/-! ## One trial -/

/-- The surrogate at a trace scale, as an objective on the matrices of the system. -/
def ConstraintSystem.objectiveAt (system : ConstraintSystem α) (scale : α) :
    Objective α system.dim :=
  Surrogate.objective ⟨system, scale⟩

namespace Feasibility

variable {system : ConstraintSystem α} {par : SearchSettings α} {work : Array α} {scale : α}

/-- The run of the solver at a trace scale. -/
def runAt (system : ConstraintSystem α) (par : SearchSettings α) (work : Array α) (scale : α) :
    FrankWolfe.Run α system.dim :=
  FrankWolfe.solve par.solver (system.objectiveAt scale) system.iterations par.curvature
    (Workspace.resize work (FrankWolfe.workLength par.solver system.dim) 0)

theorem solveScale_of_run_error (hscale : Bracket.admissible scale) {stop : Stop}
    (h : (runAt system par work scale).outcome = .error stop) :
    (solveScale system par work scale).outcome = .error stop := by
  unfold runAt ConstraintSystem.objectiveAt at h
  unfold solveScale
  rw [if_pos hscale]
  simp only [h]

theorem solveScale_of_run_ok (hscale : Bracket.admissible scale) {x : Mat α system.dim system.dim}
    (h : (runAt system par work scale).outcome = .ok x) :
    (solveScale system par work scale).outcome =
      if isFinite (Surrogate.value ⟨system, scale⟩ x) &&
          isFinite (Surrogate.sensitivity ⟨system, scale⟩ x) then
        .ok ⟨x.scale scale, Surrogate.value ⟨system, scale⟩ x,
          Surrogate.sensitivity ⟨system, scale⟩ x⟩
      else .error (.error .nonFiniteValue) := by
  unfold runAt ConstraintSystem.objectiveAt at h
  unfold solveScale
  rw [if_pos hscale]
  simp only [h]
  split <;> rfl

/-- What a trial that returns has done. -/
theorem exists_of_solveScale_ok {t : Trial α (Mat α system.dim system.dim)}
    (h : (solveScale system par work scale).outcome = .ok t) :
    Bracket.admissible scale ∧ ∃ x, (runAt system par work scale).outcome = .ok x ∧
      t = ⟨x.scale scale, Surrogate.value ⟨system, scale⟩ x,
        Surrogate.sensitivity ⟨system, scale⟩ x⟩ := by
  by_cases hscale : Bracket.admissible scale
  · refine ⟨hscale, ?_⟩
    cases hrun : (runAt system par work scale).outcome with
    | error stop =>
      rw [solveScale_of_run_error hscale hrun] at h
      cases h
    | ok x =>
      rw [solveScale_of_run_ok hscale hrun] at h
      split at h
      · cases h
        exact ⟨x, rfl, rfl⟩
      · cases h
  · unfold solveScale at h
    rw [if_neg hscale] at h
    cases h

/-- A trial fails as its run does, or for a value that is not finite. -/
theorem solveScale_error_cases (hscale : Bracket.admissible scale) {stop : Stop}
    (h : (solveScale system par work scale).outcome = .error stop) :
    (runAt system par work scale).outcome = .error stop ∨ stop = .error .nonFiniteValue := by
  cases hrun : (runAt system par work scale).outcome with
  | error stop' =>
    rw [solveScale_of_run_error hscale hrun] at h
    cases h
    exact Or.inl rfl
  | ok x =>
    rw [solveScale_of_run_ok hscale hrun] at h
    split at h
    · cases h
    · cases h
      exact Or.inr rfl

end Feasibility

/-! ## The search -/

/-- What a search that returns has found, and how many trials it took. -/
theorem exists_of_search_ok {σ χ : Type} {trial : σ → α → Step Stop σ (Trial α χ) α} {eps : α}
    {maxIter left number : ℕ} {b : Bracket α} {state : σ} {events : Array (Event α)}
    {sol : Solution α χ}
    (h : (search trial eps maxIter left number b state events).outcome = .ok sol) :
    (∃ state' t, (trial state' sol.scale).outcome = .ok t ∧ -eps < t.value ∧ sol.x = t.x ∧
      sol.value = t.value) ∧ number < sol.solves ∧ sol.solves ≤ number + left := by
  induction left generalizing number b state events with
  | zero => cases h
  | succ left ih =>
    unfold search at h
    dsimp only at h
    split at h
    · cases h
    · rename_i t ht
      split at h
      · rename_i haccept
        cases h
        have hcount : number + 1 ≤ number + (left + 1) := by omega
        exact ⟨⟨state, t, ht, haccept, rfl, rfl⟩, Nat.lt_succ_self number, hcount⟩
      · split at h
        · obtain ⟨hfound, hlow, hhigh⟩ := ih h
          exact ⟨hfound, by omega, by omega⟩
        · cases h

theorem search_of_accept {σ χ : Type} {trial : σ → α → Step Stop σ (Trial α χ) α} {eps : α}
    {b : Bracket α} {state : σ} {t : Trial α χ} (h : (trial state b.scale).outcome = .ok t)
    (haccept : -eps < t.value) (maxIter left number : ℕ) (events : Array (Event α)) :
    (search trial eps maxIter (left + 1) number b state events).outcome
      = .ok ⟨t.x, t.value, b.scale, number + 1⟩ := by
  unfold search
  simp only [h, if_pos haccept]

end Spectrahedron
