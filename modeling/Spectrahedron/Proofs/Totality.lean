import Spectrahedron.Proofs.Checked.Search
import Spectrahedron.Proofs.Refusals

/-!
# No run breaks off

The solvers as loops over slices check every length, every index and every divisor, and break off
with a fault where a check fails. No check fails. A solve asks nothing of its arguments, and of its
objective only that its methods do not fail on slices of its own dimension; a search asks only that
its data make a system. Nothing is assumed of the arithmetic, so this holds of rounded numbers, too.

What is left in the slices is what the typed solvers compute, and those end with a result or an
error.

**Theorem (`solvers_total`).** Solves, solves at a trace scale and searches end, with the outcome of
the typed solvers: a solution that fills its matrix, or an error.
-/

namespace Spectrahedron

variable {α : Type} [Scalar α] {χ ψ : Type}

/-! ## Outcomes without a fault -/

/-- A result or an error. -/
def Answers (outcome : Except Stop χ) : Prop := ∀ f, outcome ≠ .error (.fault f)

omit [Scalar α] in
theorem Answers.map {outcome : Except Stop χ} (h : Answers outcome) (f : χ → ψ) :
    Answers (outcome.map f) := by
  intro fault hfault
  cases outcome with
  | ok x => cases hfault
  | error stop => exact h fault (congrArg Except.error (Except.error.inj hfault))

namespace Feasibility

theorem answers_solveScale (system : ConstraintSystem α) (par : SearchSettings α) (work : Array α)
    (scale : α) : Answers (solveScale system par work scale).outcome := by
  intro fault hfault
  by_cases hscale : Bracket.admissible scale
  · rcases solveScale_error_cases hscale hfault with hrun | hstop
    · rcases FrankWolfe.solve_outcome_cases par.solver
        (Surrogate.totalGradient_objective ⟨system, scale⟩) system.iterations par.curvature _
        with ⟨X, hX⟩ | ⟨e, -, he⟩
      · cases hX.symm.trans hrun
      · cases he.symm.trans hrun
    · cases hstop
  · unfold solveScale at hfault
    rw [if_neg hscale] at hfault
    cases hfault

end Feasibility

/-- A search fails as one of its trials does, or with an error of its own. -/
theorem answers_search {σ : Type} {trial : σ → α → Step Stop σ (Trial α χ) α}
    (h : ∀ state scale, Answers (trial state scale).outcome) (eps : α) (maxIter left number : ℕ)
    (b : Bracket α) (state : σ) (events : Array (Event α)) :
    Answers (search trial eps maxIter left number b state events).outcome := by
  induction left generalizing number b state events with
  | zero => exact fun fault hfault => by cases hfault
  | succ left ih =>
    have htrial := h state b.scale
    unfold search
    dsimp only
    split
    · rename_i stop hstop
      rw [hstop] at htrial
      intro fault hfault
      cases hfault
      exact htrial fault rfl
    · split
      · exact fun fault hfault => by cases hfault
      · split
        · exact ih _ _ _ _
        · exact fun fault hfault => by cases hfault

omit [Scalar α] in
theorem SliceObjective.Implements.totalGradient {obj : SliceObjective α}
    {typed : Objective α obj.dim} (h : obj.Implements typed) : typed.TotalGradient := by
  intro calls x old
  obtain ⟨g, -, hg⟩ := h.gradient calls x old
  exact ⟨g, hg⟩

namespace Checked

/-- **No run breaks off.** -/
theorem solvers_total :
    (∀ obj : SliceObjective α, obj.Total →
      ∀ (s : Settings α) (iterations : ℕ) (curvature : Option α) (work : Array α),
        ∃ r, solve s obj iterations curvature work = .ok r ∧
          r = .of (FrankWolfe.solve s obj.toObjective iterations curvature work) ∧
          ((∃ x, r.outcome = .ok x ∧ x.size = obj.dim * obj.dim) ∨
            ∃ e ∈ FrankWolfe.errors, r.outcome = .error (.error e))) ∧
    ∀ (dim : ℕ) (matrices : Array (SquareMatrix α)) (bounds : Array α) (eps : α)
      (system : ConstraintSystem α),
      ConstraintSystem.build dim matrices bounds eps = .ok system →
      ∀ (par : SearchSettings α) (work : Array α),
        (∀ scale, ∃ r, solveScale ⟨dim, matrices, bounds, eps⟩ par work scale = .ok r ∧
          r = .ofStep (Trial.map Mat.toArray) (Feasibility.solveAt ⟨system, work⟩ par scale) ∧
          Answers r.outcome) ∧
        ∃ r, feasible ⟨dim, matrices, bounds, eps⟩ par work = .ok r ∧
          r = .ofStep (Solution.map Mat.toArray) (Feasibility.solve ⟨system, work⟩ par) ∧
          Answers r.outcome := by
  refine ⟨fun obj hobj s iterations curvature work => ?_, ?_⟩
  · refine ⟨_, solve_eq hobj.implements s curvature iterations work, rfl, ?_⟩
    rcases FrankWolfe.solve_outcome_cases s hobj.implements.totalGradient iterations curvature work
      with ⟨X, hX⟩ | ⟨e, he, hout⟩
    · exact Or.inl ⟨X.toArray, congrArg (Except.map Mat.toArray) hX, X.size_toArray⟩
    · exact Or.inr ⟨e, he, congrArg (Except.map Mat.toArray) hout⟩
  · intro dim matrices bounds eps system hbuild par work
    rw [SystemSlices.eq_of_build hbuild]
    refine ⟨fun scale => ⟨_, solveScale_eq system par work scale, rfl, ?_⟩,
      _, search_eq system par _ _ _ _ _, rfl, ?_⟩
    · exact (Feasibility.answers_solveScale system par work scale).map _
    · exact (answers_search (Feasibility.answers_solveScale system par) _ _ _ _ _ _ _).map _

/-- An objective that takes no notice of the matrices: its value is zero, and it leaves the slice of
the gradient as it is. -/
def idleObjective : SliceObjective ℝ := ⟨2, fun _ => .ok 0, fun _ _ g => .ok g⟩

/-- The matrix of a constraint, which need not be symmetric. -/
def cornerMatrix : SquareMatrix ℝ := ⟨2, Mat.ofFn fun r c => if r < c then 1 else 0⟩

/-- A solve whose settings allow neither Krylov vectors nor sweeps nor reports, and a search with
the default settings. -/
theorem idleObjective_solvers_total :
    idleObjective.Total ∧
    (∃ r, solve { (Settings.default : Settings ℝ) with
        krylovDim := 0, lanczosMinDim := 0, maxIterEig := 0, logPeriod := 0 }
        idleObjective 1 none (Array.replicate 100 0) = .ok r ∧
      ((∃ x, r.outcome = .ok x ∧ x.size = 4) ∨
        ∃ e ∈ FrankWolfe.errors, r.outcome = .error (.error e))) ∧
    ∃ system, ConstraintSystem.build 2 #[cornerMatrix] #[1] (1 : ℝ) = .ok system ∧
      (∃ r, solveScale ⟨2, #[cornerMatrix], #[1], 1⟩ SearchSettings.default #[] (2 : ℝ) = .ok r ∧
        Answers r.outcome) ∧
      ∃ r, feasible ⟨2, #[cornerMatrix], #[1], (1 : ℝ)⟩ SearchSettings.default #[] = .ok r ∧
        Answers r.outcome := by
  have htotal : idleObjective.Total :=
    ⟨fun _ _ => ⟨0, rfl⟩, fun _ _ g _ hg => ⟨g, rfl, hg⟩⟩
  obtain ⟨system, hbuild⟩ : ∃ system,
      ConstraintSystem.build 2 #[cornerMatrix] #[1] (1 : ℝ) = .ok system := by
    refine ConstraintSystem.exists_build zero_lt_two (by decide) ⟨one_pos, rfl⟩ rfl fun i hi => ?_
    obtain rfl : i = 0 := Nat.lt_one_iff.1 hi
    rfl
  obtain ⟨hsolve, hsearch⟩ := solvers_total (α := ℝ)
  obtain ⟨hscale, r, hr, -, hanswers⟩ := hsearch _ _ _ _ system hbuild SearchSettings.default #[]
  obtain ⟨r', hr', -, hanswers'⟩ := hscale 2
  obtain ⟨r'', hr'', -, hends⟩ := hsolve idleObjective htotal _ 1 none (Array.replicate 100 0)
  exact ⟨htotal, ⟨r'', hr'', hends⟩, system, hbuild, ⟨r', hr', hanswers'⟩, r, hr, hanswers⟩

end Checked

end Spectrahedron
