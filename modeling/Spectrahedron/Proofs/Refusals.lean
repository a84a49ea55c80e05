import Spectrahedron.Proofs.Direction
import Spectrahedron.Proofs.WorkLength

/-!
# Why solves and searches fail

An extraction from a matrix that has rows fails only when its slice is too short or when it does not
converge; an iteration fails with its gradient or with its extraction. So the errors of a solve can
be listed, whatever the arithmetic.

The gradient of a surrogate is symmetric for any constraint matrices. In exact arithmetic this rules
out most of the list for solves at a trace scale, and the search never produces a scale that such a
solve would refuse.

**Theorem (`Feasibility.solve_refused_iff`).** A solve at a trace scale and a search refuse their
parameters exactly when the scale or the curvature constant is not positive, and their only other
failures are that they do not converge.
-/

namespace Spectrahedron

open Scalar

variable {α : Type} [Scalar α] {n m : ℕ}

/-! ## Extractions -/

theorem Dense.topEig_error (d : Dense α) (hn : 0 < n) {G : Mat α n n} {vec : Vector α n}
    {w : Dense.Regions α n} {stop : Stop} (h : (d.topEig G vec w).outcome = .error stop) :
    stop = .error .eigenConvergence := by
  unfold Dense.topEig at h
  dsimp only at h
  split at h
  · cases h
  · rename_i hpair
    cases h
    unfold Dense.topPair at hpair
    rw [dif_pos hn] at hpair
    split at hpair
    · cases hpair
    · cases hpair
      rfl

namespace Lanczos

theorem restarts_error (l : Lanczos α) {G : Mat α n n} {normG tol : α} {hm : 0 < m} {hmn : m ≤ n}
    {left number : ℕ} {v : Vector α n} {K : Krylov α n m} {events : Array (Event α)} {stop : Stop}
    (h : (l.restarts G normG tol hm hmn left number v K events).outcome = .error stop) :
    stop = .error .eigenConvergence := by
  induction left generalizing number v K events with
  | zero =>
    cases h
    rfl
  | succ left ih =>
    unfold restarts at h
    dsimp only at h
    split at h
    · cases h
      rfl
    · split at h
      · cases h
      · exact ih h

theorem topEig_error (l : Lanczos α) (hn : 0 < n) {G : Mat α n n} {tol : α} {vec : Vector α n}
    {K : Krylov α n (basisDim l.krylovDim n)} {stop : Stop}
    (h : (l.topEig G tol vec K).outcome = .error stop) : stop = .error .eigenConvergence := by
  unfold topEig at h
  dsimp only at h
  split at h
  · unfold topEigZero normalize? at h
    rw [dif_pos hn] at h
    cases h
  · unfold topEigNonzero at h
    rw [dif_pos hn] at h
    exact l.restarts_error h

end Lanczos

/-- **Extractions** fail for one of two reasons. -/
theorem Extractor.topEig_error (e : Extractor α) (hn : 0 < n) {G : Mat α n n} {tol : α}
    {vec : Vector α n} {work : Array α} {stop : Stop}
    (h : (e.topEig G tol vec work).outcome = .error stop) :
    stop = .error .eigenConvergence ∨ stop = .error .workShortage := by
  cases e with
  | dense d =>
    unfold topEig at h
    dsimp only at h
    split at h
    · exact Or.inl (d.topEig_error hn h)
    · cases h
      exact Or.inr rfl
  | lanczos l =>
    unfold topEig at h
    dsimp only at h
    split at h
    · exact Or.inl (l.topEig_error hn h)
    · cases h
      exact Or.inr rfl

/-! ## Solves -/

/-- The gradient never fails to be computed. It may still be refused. -/
def Objective.TotalGradient (obj : Objective α n) : Prop :=
  ∀ calls x old, ∃ g, obj.gradient calls x old = .ok g

theorem Surrogate.totalGradient_objective (f : Surrogate α) : f.objective.TotalGradient :=
  fun _ _ _ => ⟨_, rfl⟩

namespace FrankWolfe

/-- The errors that a solve may end with. -/
def errors : List SolveError :=
  [.invalidParam, .workShortage, .nonFiniteValue, .asymmetricGradient, .eigenConvergence]

variable {p : Problem α n} {k : ℕ} {st : State α n}

theorem symmetricGradient_error (hobj : p.objective.TotalGradient) {stop : Stop}
    (h : symmetricGradient p k st = .error stop) : ∃ e ∈ errors, stop = .error e := by
  obtain ⟨g, hg⟩ := hobj k st.regions.point st.regions.gradient
  unfold symmetricGradient symmetrize at h
  rw [hg] at h
  dsimp only at h
  split at h
  · rename_i hrefused
    cases h
    split at hrefused
    · split at hrefused
      · cases hrefused
        exact ⟨.asymmetricGradient, by decide, rfl⟩
      · cases hrefused
    · cases hrefused
      exact ⟨.nonFiniteValue, by decide, rfl⟩
  · cases h

theorem advance_error (hn : 0 < n) (hobj : p.objective.TotalGradient) {stop : Stop}
    (h : (advance p k st).outcome = .error stop) : ∃ e ∈ errors, stop = .error e := by
  rcases advance_error_cases h with hgrad | ⟨G, -, hext⟩
  · exact symmetricGradient_error hobj hgrad
  · rcases p.extractor.topEig_error hn hext with hconv | hshort
    · exact ⟨.eigenConvergence, by decide, hconv⟩
    · exact ⟨.workShortage, by decide, hshort⟩

/-- **Solves.** Whatever the arithmetic and the arguments, a solve with an objective that computes
its gradients returns or ends with one of these errors. -/
theorem solve_outcome_cases (s : Settings α) {obj : Objective α n} (hobj : obj.TotalGradient)
    (iterations : ℕ) (curvature : Option α) (work : Array α) :
    (∃ X, (solve s obj iterations curvature work).outcome = .ok X) ∨
      ∃ e ∈ errors, (solve s obj iterations curvature work).outcome = .error (.error e) := by
  unfold solve
  split
  · exact Or.inr ⟨.invalidParam, by decide, rfl⟩
  · rename_i hargs
    split
    · exact Or.inr ⟨.invalidParam, by decide, rfl⟩
    · split
      · rename_i hwork
        obtain ⟨stop, st, hends, hout⟩ :=
          ends_run s obj iterations curvature
            (Regions.ofSlice n work (size_le_of_workLength_le hwork))
        rw [hout]
        generalize (run s obj iterations curvature _).trail.toCourse = c at hends
        cases hends with
        | finished => exact Or.inl ⟨_, rfl⟩
        | stopped _ _ hstop =>
          obtain ⟨e, he, rfl⟩ := advance_error (by omega) hobj hstop
          exact Or.inr ⟨e, he, rfl⟩
      · exact Or.inr ⟨.workShortage, by decide, rfl⟩

theorem solve_of_curvature (s : Settings α) (obj : Objective α n) (iterations : ℕ)
    {curvature : Option α} (work : Array α) (hcurv : ∃ c ∈ curvature, ¬0 < c) :
    (solve s obj iterations curvature work).outcome = .error (.error .invalidParam) := by
  unfold solve
  split
  · rfl
  · split
    · rfl
    · rename_i hnone
      obtain ⟨c, hc, hneg⟩ := hcurv
      have hpos := Option.filter_eq_none_iff.1 hnone c hc
      exact absurd hneg (by simpa using hpos)

end FrankWolfe

/-! ## Solves at a trace scale -/

/-- The parameters that a solve at a trace scale refuses. -/
def SearchSettings.Refuses (par : SearchSettings ℝ) (scale : ℝ) : Prop :=
  scale ≤ 0 ∨ ∃ c ∈ par.curvature, c ≤ 0

theorem SearchSettings.not_refuses_iff {par : SearchSettings ℝ} {scale : ℝ} :
    ¬par.Refuses scale ↔ 0 < scale ∧ ∀ c ∈ par.curvature, 0 < c := by
  simp [Refuses]

namespace Feasibility

open FrankWolfe

variable (p : Feasibility ℝ) {par : SearchSettings ℝ} (hsym : 0 ≤ par.solver.epsSym)
  (hkrylov : 1 ≤ par.solver.krylovDim) {scale : ℝ}

theorem solveAt_of_refuses (h : par.Refuses scale) :
    (p.solveAt par scale).outcome = .error (.error .invalidParam) := by
  by_cases hscale : Bracket.admissible scale
  · have hcurv : ∃ c ∈ par.curvature, ¬0 < c := by
      rcases h with hle | ⟨c, hc, hle⟩
      · exact absurd hscale.1 (not_lt.2 hle)
      · exact ⟨c, hc, not_lt.2 hle⟩
    exact solveScale_of_run_error hscale (solve_of_curvature _ _ _ _ hcurv)
  · unfold solveAt solveScale
    rw [if_neg hscale]

theorem not_refuses_of_solveAt_ok {t : Trial ℝ p.Point}
    (h : (p.solveAt par scale).outcome = .ok t) : ¬par.Refuses scale := by
  intro hrefuses
  rw [p.solveAt_of_refuses hrefuses] at h
  cases h

/-- No scale that follows a rejected one is refused. -/
theorem not_refuses_of_rejected {k : ℕ} {b : Bracket ℝ}
    (h : Rejected (fun scale => (p.solveAt par scale).outcome) p.system.eps
      (Bracket.start par.traceInit) (k + 1) b) : ¬par.Refuses b.scale := by
  cases h with
  | step hb ht _ =>
    have hpos : ∀ scale t, (p.solveAt par scale).outcome = .ok t → 0 < scale :=
      fun _ _ h => (SearchSettings.not_refuses_iff.1 (p.not_refuses_of_solveAt_ok h)).1
    have hnext := hb.admissible_reject hpos Bracket.ordered_start ht
    have hcurv := (SearchSettings.not_refuses_iff.1 (p.not_refuses_of_solveAt_ok ht)).2
    exact SearchSettings.not_refuses_iff.2 ⟨hnext.1, hcurv⟩

/-- A search is a loop of solves that leave the problem as they find it. -/
theorem solve_eq_iff (par : SearchSettings ℝ) (result : Except Stop (Solution ℝ p.Point)) :
    (p.solve par).outcome = result ↔
      SearchEnds (fun scale => (p.solveAt par scale).outcome) p.system.eps
        (Bracket.start par.traceInit) par.maxIter result :=
  search_eq_iff_searchEnds
    (fun _ _ h => (SearchSettings.not_refuses_iff.1 (p.not_refuses_of_solveAt_ok h)).1)
    (fun work scale => solveScale_outcome_congr work p.work scale) Bracket.ordered_start _ _ _ _

/-- A search that refuses its parameters does so at once. -/
theorem solve_of_refuses (hmax : 0 < par.maxIter) (h : par.Refuses par.traceInit) :
    (p.solve par).outcome = .error (.error .invalidParam) :=
  (p.solve_eq_iff par _).2 (.failed .start hmax (p.solveAt_of_refuses h))

include hsym hkrylov

/-- With admissible parameters, nothing but the extraction can fail: the gradient of the surrogate
is symmetric for any constraint matrices. -/
theorem solveAt_of_not_refuses (h : ¬par.Refuses scale) :
    (∃ t, (p.solveAt par scale).outcome = .ok t) ∨
      (p.solveAt par scale).outcome = .error (.error .eigenConvergence) := by
  obtain ⟨hscale, hcurv⟩ := SearchSettings.not_refuses_iff.1 h
  have hadmissible : Bracket.admissible scale := ⟨hscale, rfl⟩
  cases hrun : (runAt p.system par p.work scale).outcome with
  | ok x => exact Or.inl ⟨_, (solveScale_of_run_ok hadmissible hrun).trans (if_pos rfl)⟩
  | error stop =>
    have herror : (p.solveAt par scale).outcome = .error stop :=
      solveScale_of_run_error hadmissible hrun
    -- The work slice has been resized to the required length, which suffices for `1 ≤ krylovDim`.
    have hshort : stop ≠ .error .workShortage := by
      rintro rfl
      have hzero := ((p.solveAt_workShortage_iff par hadmissible hcurv).1 herror).2.1
      omega
    rw [runAt, solve_eq_run p.system.dim_pos p.system.iterations_pos hcurv
      (Nat.le_of_eq (size_resize_work par.solver p.work 0).symm)] at hrun
    obtain ⟨reason, st, hends, hout⟩ := ends_run par.solver (p.system.objectiveAt scale)
      p.system.iterations par.curvature _
    rw [hout, outcomeOf_eq_error] at hrun
    subst hrun
    generalize (run par.solver _ _ _ _).trail.toCourse = c at hends
    cases hends with
    | @stopped k st _ _ _ _ hstop =>
      have hsymmetric : symmetricGradient
          (problem par.solver (p.system.objectiveAt scale) par.curvature) k st = .ok _ :=
        symmetricGradient_of_isSymm rfl (Surrogate.isSymm_gradient _ _ _) hsym
      rcases advance_error_cases hstop with hgrad | ⟨G, -, hext⟩
      · rw [hsymmetric] at hgrad
        cases hgrad
      · rcases Extractor.topEig_error _ p.system.dim_pos hext with rfl | rfl
        · exact Or.inr herror
        · exact absurd rfl hshort

theorem solveAt_invalidParam_iff :
    (p.solveAt par scale).outcome = .error (.error .invalidParam) ↔ par.Refuses scale := by
  refine ⟨fun h => ?_, p.solveAt_of_refuses⟩
  by_contra hrefuses
  rcases p.solveAt_of_not_refuses hsym hkrylov hrefuses with ⟨t, ht⟩ | hconv
  · rw [ht] at h
    cases h
  · rw [hconv] at h
    cases h

theorem solve_of_not_refuses (h : ¬par.Refuses par.traceInit) :
    (∃ sol, (p.solve par).outcome = .ok sol) ∨
      (p.solve par).outcome = .error (.error .eigenConvergence) ∨
      (p.solve par).outcome = .error (.error .searchConvergence) := by
  have hends := (p.solve_eq_iff par _).1 rfl
  generalize (p.solve par).outcome = result at hends ⊢
  cases hends with
  | accepted => exact Or.inl ⟨_, rfl⟩
  | @failed k b stop hb _ ht =>
    -- The scale is the first one, or one that the search has come to.
    have hscale : ¬par.Refuses b.scale := by
      cases k with
      | zero =>
        cases hb
        exact h
      | succ k => exact p.not_refuses_of_rejected hb
    rcases p.solveAt_of_not_refuses hsym hkrylov hscale with ⟨t, hok⟩ | hconv
    · cases hok.symm.trans ht
    · cases hconv.symm.trans ht
      exact Or.inr (Or.inl rfl)
  | exhausted => exact Or.inr (Or.inr rfl)

omit hsym hkrylov

/-- **The errors of solves at a trace scale and of searches.** Both refuse their parameters exactly
when the scale, for a search the first one, or the curvature constant is not positive. No other
scale of a search is refused. If they are not refused, they return or do not converge. -/
theorem solve_refused_iff (p : Feasibility ℝ) (par : SearchSettings ℝ)
    (hsym : 0 ≤ par.solver.epsSym) (hkrylov : 1 ≤ par.solver.krylovDim) :
    (∀ scale, ((p.solveAt par scale).outcome = .error (.error .invalidParam) ↔
        scale ≤ 0 ∨ ∃ c ∈ par.curvature, c ≤ 0) ∧
      ((p.solveAt par scale).outcome ≠ .error (.error .invalidParam) →
        (∃ t, (p.solveAt par scale).outcome = .ok t) ∨
          (p.solveAt par scale).outcome = .error (.error .eigenConvergence))) ∧
    (0 < par.maxIter →
      ((p.solve par).outcome = .error (.error .invalidParam) ↔
        par.traceInit ≤ 0 ∨ ∃ c ∈ par.curvature, c ≤ 0) ∧
      ((p.solve par).outcome ≠ .error (.error .invalidParam) →
        (∃ sol, (p.solve par).outcome = .ok sol) ∨
          (p.solve par).outcome = .error (.error .eigenConvergence) ∨
          (p.solve par).outcome = .error (.error .searchConvergence)) ∧
      ∀ k b, Rejected (fun scale => (p.solveAt par scale).outcome) p.system.eps
          (Bracket.start par.traceInit) (k + 1) b →
        0 < b.scale ∧ (p.solveAt par b.scale).outcome ≠ .error (.error .invalidParam)) := by
  have hsolveAt : ∀ {scale}, (p.solveAt par scale).outcome = .error (.error .invalidParam) ↔
      par.Refuses scale := p.solveAt_invalidParam_iff hsym hkrylov
  refine ⟨fun scale => ⟨hsolveAt, fun h => ?_⟩, fun hmax => ⟨⟨fun h => ?_, ?_⟩, fun h => ?_, ?_⟩⟩
  · exact p.solveAt_of_not_refuses hsym hkrylov (mt hsolveAt.2 h)
  · by_contra hrefuses
    rcases p.solve_of_not_refuses hsym hkrylov hrefuses with ⟨sol, hok⟩ | hconv | hsearch
    · cases hok.symm.trans h
    · cases hconv.symm.trans h
    · cases hsearch.symm.trans h
  · exact p.solve_of_refuses hmax
  · exact p.solve_of_not_refuses hsym hkrylov (mt (p.solve_of_refuses hmax) h)
  · intro k b hb
    have hscale := p.not_refuses_of_rejected hb
    exact ⟨(SearchSettings.not_refuses_iff.1 hscale).1, mt hsolveAt.1 hscale⟩

/-- With the default settings, a search for the bound minus one is not refused, though the matrix of
the constraint is not symmetric. The first scale is rejected, and the next one can be tried. -/
theorem skewSystem_solve_refused :
    (0 ≤ (SearchSettings.default : SearchSettings ℝ).solver.epsSym ∧
      1 ≤ (SearchSettings.default : SearchSettings ℝ).solver.krylovDim) ∧
    (Feasibility.solveAt ⟨skewSystem (-1), #[]⟩ SearchSettings.default 0).outcome
        = .error (.error .invalidParam) ∧
    (Feasibility.solve ⟨skewSystem (-1), #[]⟩ SearchSettings.default).outcome
        ≠ .error (.error .invalidParam) ∧
    ∃ b, Rejected
        (fun t => (Feasibility.solveAt ⟨skewSystem (-1), #[]⟩ SearchSettings.default t).outcome)
        (skewSystem (-1)).eps (Bracket.start 1) 1 b ∧ 0 < b.scale := by
  have hsym : 0 ≤ (SearchSettings.default : SearchSettings ℝ).solver.epsSym :=
    (tenToMinus_pos 8).le
  have hkrylov : 1 ≤ (SearchSettings.default : SearchSettings ℝ).solver.krylovDim := by decide
  have heps : 0 ≤ (SearchSettings.default : SearchSettings ℝ).solver.epsZero :=
    (tenToMinus_pos 12).le
  obtain ⟨hsolveAt, hsolve⟩ := solve_refused_iff ⟨skewSystem (-1), #[]⟩ _ hsym hkrylov
  obtain ⟨hiff, -, hnext⟩ := hsolve (by decide)
  obtain ⟨X, hrun⟩ := exists_runAt_skewSystem (-1) 1 #[]
  have hX : X ∈ spectrahedron 2 := (FrankWolfe.solve_mem heps _ _ _ _).2 X hrun
  have hreject : ¬-(skewSystem (-1)).eps < Surrogate.value ⟨skewSystem (-1), 1⟩ X := by
    rw [value_skewSystem_eq hX]
    show ¬-(1 / 10) < (-1 - 1 : ℝ)
    norm_num
  have hrejected : ∃ b, Rejected
      (fun t => (Feasibility.solveAt ⟨skewSystem (-1), #[]⟩ SearchSettings.default t).outcome)
      (skewSystem (-1)).eps (Bracket.start 1) 1 b :=
    ⟨_, .step .start (solveScale_of_run_ok ⟨zero_lt_one, rfl⟩ hrun) hreject⟩
  obtain ⟨b, hb⟩ := hrejected
  refine ⟨⟨hsym, hkrylov⟩, (hsolveAt 0).1.2 (Or.inl le_rfl), fun h => ?_, b, hb, (hnext 0 b hb).1⟩
  rcases hiff.1 h with hle | ⟨c, hc, -⟩
  · exact absurd hle (not_le.2 one_pos)
  · cases hc

end Feasibility

end Spectrahedron
