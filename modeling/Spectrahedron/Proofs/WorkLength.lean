import Spectrahedron.BoundedTrace
import Spectrahedron.Proofs.Points
import Spectrahedron.Proofs.Runs
import Spectrahedron.Proofs.Trials

/-!
# Lengths of work slices

An extraction leaves its work slice as long as it found it, and runs short exactly when the slice is
shorter than the extractor requires. So a run can run short in its first extraction only.

The length that a solve asks for counts the Krylov dimension as it is given, and the extractor takes
a dimension of zero for one.

**Theorem (`workShortage_iff_krylovDim_eq_zero`).** A slice of the length that a solve asks for is
too short exactly when the Krylov dimension is zero, the Lanczos extractor is chosen, and the first
gradient is not refused.
-/

namespace Spectrahedron

open Scalar

variable {α : Type} [Scalar α] {n m : ℕ}

/-! ## The slice of an extraction -/

omit [Scalar α] in
theorem Workspace.size_rest (work : Array α) (start : ℕ) :
    (Workspace.rest work start).size = work.size - start := by
  simp [Workspace.rest]

omit [Scalar α] in
theorem Dense.Regions.size_toArray (w : Dense.Regions α n) :
    w.toArray.size = Dense.workLength n := by
  simp only [Dense.Regions.toArray, Dense.workLength, EigenDecomposition.workLength,
    Array.size_append, Mat.size_toArray, Vector.size_toArray, Nat.add_zero]

omit [Scalar α] in
theorem Krylov.size_toArray (K : Krylov α n m) : K.toArray.size = Krylov.size n m := by
  simp only [Krylov.toArray, Krylov.size, Array.size_append, Mat.size_toArray, Vector.size_toArray]

theorem Dense.topEig_ne_workShortage (d : Dense α) (G : Mat α n n) (vec : Vector α n)
    (w : Dense.Regions α n) : (d.topEig G vec w).outcome ≠ .error (.error .workShortage) := by
  unfold Dense.topEig
  dsimp only
  split
  · exact fun h => by cases h
  · rename_i stop hstop
    rintro ⟨⟩
    unfold Dense.topPair at hstop
    split at hstop
    · split at hstop <;> cases hstop
    · cases hstop

namespace Lanczos

theorem restarts_ne_workShortage (l : Lanczos α) (G : Mat α n n) (normG tol : α) (hm : 0 < m)
    (hmn : m ≤ n) (left number : ℕ) (v : Vector α n) (K : Krylov α n m) (events : Array (Event α)) :
    (l.restarts G normG tol hm hmn left number v K events).outcome
      ≠ .error (.error .workShortage) := by
  induction left generalizing number v K events with
  | zero => exact fun h => by cases h
  | succ left ih =>
    unfold restarts
    dsimp only
    split
    · exact fun h => by cases h
    · split
      · exact fun h => by cases h
      · exact ih _ _ _ _

theorem topEig_ne_workShortage (l : Lanczos α) (G : Mat α n n) (tol : α) (vec : Vector α n)
    (K : Krylov α n (basisDim l.krylovDim n)) :
    (l.topEig G tol vec K).outcome ≠ .error (.error .workShortage) := by
  unfold topEig
  dsimp only
  split
  · unfold topEigZero
    split <;> exact fun h => by cases h
  · unfold topEigNonzero
    split
    · exact l.restarts_ne_workShortage G _ tol _ _ _ _ _ _ _
    · unfold topEigEmpty
      split
      · exact fun h => by cases h
      · split
        · exact fun h => by cases h
        · dsimp only
          split <;> exact fun h => by cases h

end Lanczos

namespace Extractor

variable (e : Extractor α) (G : Mat α n n) (tol : α) (vec : Vector α n) (work : Array α)

theorem size_topEig_work : (e.topEig G tol vec work).work.size = work.size := by
  cases e with
  | dense d =>
    unfold topEig
    dsimp only
    split
    · rename_i hfit
      simp only [Extraction.mapWork, joinDense, Array.size_append, Dense.Regions.size_toArray,
        Workspace.size_rest]
      omega
    · rfl
  | lanczos l =>
    unfold topEig
    dsimp only
    split
    · rename_i hfit
      have hsize : Krylov.size n (Lanczos.basisDim l.krylovDim n) ≤ work.size := hfit
      simp only [Extraction.mapWork, joinLanczos, Array.size_append, Krylov.size_toArray,
        Workspace.size_rest]
      omega
    · rfl

/-- An extraction runs short exactly when its slice is shorter than required. -/
theorem topEig_workShortage_iff :
    (e.topEig G tol vec work).outcome = .error (.error .workShortage) ↔
      work.size < e.workLength n := by
  cases e with
  | dense d =>
    unfold topEig workLength
    dsimp only
    split
    · rename_i hfit
      exact ⟨fun h => absurd h (d.topEig_ne_workShortage G vec _), fun h => by omega⟩
    · rename_i hshort
      exact ⟨fun _ => by omega, fun _ => rfl⟩
  | lanczos l =>
    unfold topEig workLength
    dsimp only
    split
    · rename_i hfit
      exact ⟨fun h => absurd h (l.topEig_ne_workShortage G tol vec _), fun h => by omega⟩
    · rename_i hshort
      exact ⟨fun _ => by omega, fun _ => rfl⟩

/-! ## The length that is asked for -/

omit [Scalar α] in
theorem workLength_select_of_ne (n : ℕ) {lanczosMinDim krylovDim : ℕ} (epsZero : α) (maxIter : ℕ)
    (h : ¬(lanczosMinDim ≤ n ∧ krylovDim = 0)) :
    (select n lanczosMinDim krylovDim epsZero maxIter).workLength n
      = selectWorkLength n lanczosMinDim krylovDim := by
  unfold select selectWorkLength
  by_cases hdim : lanczosMinDim ≤ n
  · have hpos : 0 < krylovDim := Nat.pos_of_ne_zero fun h0 => h ⟨hdim, h0⟩
    rw [if_pos hdim, if_pos hdim]
    exact congrArg (Lanczos.workLength n) (Nat.max_eq_left hpos)
  · rw [if_neg hdim, if_neg hdim]
    rfl

omit [Scalar α] in
theorem workLength_select_of_zero {n lanczosMinDim krylovDim : ℕ} (epsZero : α) (maxIter : ℕ)
    (h : lanczosMinDim ≤ n ∧ krylovDim = 0) :
    (select n lanczosMinDim krylovDim epsZero maxIter).workLength n = Lanczos.workLength n 1 := by
  unfold select
  rw [if_pos h.1, h.2]
  rfl

theorem selectWorkLength_of_zero {n lanczosMinDim krylovDim : ℕ}
    (h : lanczosMinDim ≤ n ∧ krylovDim = 0) : selectWorkLength n lanczosMinDim krylovDim = n := by
  unfold selectWorkLength
  rw [if_pos h.1, h.2]
  simp [Lanczos.workLength, Lanczos.basisDim, Krylov.size, EigenDecomposition.workLength]

theorem lanczosWorkLength_one {n : ℕ} (hn : 0 < n) : Lanczos.workLength n 1 = n + n + 5 := by
  have hdim : Lanczos.basisDim 1 n = 1 := Nat.min_eq_left hn
  simp only [Lanczos.workLength, Krylov.size, EigenDecomposition.workLength, hdim]
  omega

omit [Scalar α] in
/-- What is asked for covers what is required, but for a Krylov dimension of zero. -/
theorem workLength_select_le_iff {n : ℕ} (hn : 0 < n) (lanczosMinDim krylovDim : ℕ) (epsZero : α)
    (maxIter : ℕ) :
    (select n lanczosMinDim krylovDim epsZero maxIter).workLength n
        ≤ selectWorkLength n lanczosMinDim krylovDim ↔
      ¬(lanczosMinDim ≤ n ∧ krylovDim = 0) := by
  constructor
  · intro hle hzero
    rw [workLength_select_of_zero epsZero maxIter hzero, selectWorkLength_of_zero hzero,
      lanczosWorkLength_one hn] at hle
    omega
  · intro h
    exact Nat.le_of_eq (workLength_select_of_ne n epsZero maxIter h)

end Extractor

/-! ## The slice of a run -/

namespace FrankWolfe

variable {p : Problem α n} {k : ℕ} {st st₀ : State α n} {c : Course α n}

theorem symmetricGradient_ne_workShortage :
    symmetricGradient p k st ≠ .error (.error .workShortage) := by
  unfold symmetricGradient
  split
  · exact fun h => by cases h
  · split
    · rename_i e event hsym
      rintro ⟨⟩
      unfold symmetrize at hsym
      dsimp only at hsym
      split at hsym
      · split at hsym <;> cases hsym
      · cases hsym
    · exact fun h => by cases h

theorem symmetricGradient_of_isSymm {p : Problem ℝ n} {st : State ℝ n} {g : Mat ℝ n n}
    (hg : p.objective.gradient k st.regions.point st.regions.gradient = .ok g)
    (hsymm : g.toMatrix.IsSymm) (heps : 0 ≤ p.settings.epsSym) :
    symmetricGradient p k st = .ok g := by
  unfold symmetricGradient
  rw [hg]
  dsimp only
  rw [symmetrize_of_isSymm hsymm heps]

/-- An iteration runs short exactly when it comes to an extraction whose slice is too short. -/
theorem advance_workShortage_iff :
    (advance p k st).outcome = .error (.error .workShortage) ↔
      st.regions.eigWork.size < p.extractor.workLength n ∧
        ∃ G, symmetricGradient p k st = .ok G := by
  constructor
  · intro h
    rcases advance_error_cases h with hgrad | ⟨G, hG, hext⟩
    · exact absurd hgrad symmetricGradient_ne_workShortage
    · exact ⟨(Extractor.topEig_workShortage_iff ..).1 hext, G, hG⟩
  · rintro ⟨hshort, G, hG⟩
    exact advance_of_extraction_error hG ((Extractor.topEig_workShortage_iff ..).2 hshort)

theorem size_eigWork_of_advance_ok {f : Figures α} (h : (advance p k st).outcome = .ok f) :
    (advance p k st).state.regions.eigWork.size = st.regions.eigWork.size ∧
      p.extractor.workLength n ≤ st.regions.eigWork.size := by
  obtain ⟨G, value, hG, hext, hregions⟩ := exists_of_advance_ok h
  rw [hregions]
  refine ⟨Extractor.size_topEig_work .., ?_⟩
  refine Nat.le_of_not_lt fun hshort => ?_
  rw [advance_workShortage_iff.2 ⟨hshort, G, hG⟩] at h
  cases h

/-- Iterations keep the length of the slice, and any iteration that succeeds shows that it suffices.
-/
theorem Reaches.size_eigWork (h : Reaches p st₀ k st c) :
    st.regions.eigWork.size = st₀.regions.eigWork.size ∧
      (0 < k → p.extractor.workLength n ≤ st₀.regions.eigWork.size) := by
  induction h with
  | start => exact ⟨rfl, fun h => absurd h (Nat.lt_irrefl 0)⟩
  | step _ hok ih =>
    obtain ⟨hsize, hfit⟩ := size_eigWork_of_advance_ok hok
    rw [ih.1] at hsize hfit
    exact ⟨hsize, fun _ => hfit⟩

theorem Reaches.eq_start (h : Reaches p st₀ 0 st c) : st = st₀ := by
  cases h
  rfl

/-- A run runs short in its first iteration or not at all. -/
theorem Ends.workShortage_iff {total : ℕ} (htotal : 0 < total) {stop : Option Stop}
    (h : Ends p st₀ total stop st c) :
    stop = some (.error .workShortage) ↔
      st₀.regions.eigWork.size < p.extractor.workLength n ∧
        ∃ G, symmetricGradient p 0 st₀ = .ok G := by
  cases h with
  | finished hreach =>
    have hfit := hreach.size_eigWork.2 htotal
    exact ⟨fun h => (by cases h), fun h => absurd h.1 (Nat.not_lt.2 hfit)⟩
  | @stopped k st c stop hreach hk hstop =>
    rcases Nat.eq_zero_or_pos k with rfl | hpos
    · rw [hreach.eq_start] at hstop
      rw [← advance_workShortage_iff, hstop, Option.some.injEq, Except.error.injEq]
    · obtain ⟨hsize, hfit⟩ := hreach.size_eigWork
      refine ⟨?_, fun h => absurd h.1 (Nat.not_lt.2 (hfit hpos))⟩
      rintro ⟨⟩
      have hshort := (advance_workShortage_iff.1 hstop).1
      rw [hsize] at hshort
      exact absurd hshort (Nat.not_lt.2 (hfit hpos))

omit [Scalar α] in
theorem outcomeOf_eq_error {stop : Option Stop} {reason : Stop} :
    outcomeOf stop st = .error reason ↔ stop = some reason := by
  cases stop <;> simp [outcomeOf]

/-- The gradient at the starting point of a solve, made symmetric, or the reason why it is refused.
-/
def firstGradient (s : Settings α) (obj : Objective α n) (curvature : Option α) (w : Regions α n) :
    Except Stop (Mat α n n) :=
  symmetricGradient (problem s obj curvature) 0 (initialState s w)

omit [Scalar α] in
theorem Regions.size_eigWork_ofSlice (work : Array α) (h : Regions.size n ≤ work.size) :
    (Regions.ofSlice n work h).eigWork.size = work.size - Regions.size n :=
  Workspace.size_rest work _

variable {s : Settings α} {obj : Objective α n} {iterations : ℕ} {curvature : Option α}
  {work : Array α}

omit [Scalar α] in
theorem size_le_of_workLength_le (h : workLength s n ≤ work.size) : Regions.size n ≤ work.size :=
  Nat.le_trans (Nat.le_add_right _ _) h

/-- A solve with admissible arguments runs short exactly when its first extraction does. -/
theorem solve_workShortage_iff (hn : 0 < n) (hiter : 0 < iterations)
    (hcurv : ∀ c ∈ curvature, 0 < c) (hwork : workLength s n ≤ work.size) :
    (solve s obj iterations curvature work).outcome = .error (.error .workShortage) ↔
      s.lanczosMinDim ≤ n ∧ s.krylovDim = 0 ∧
        work.size < Regions.size n + Lanczos.workLength n 1 ∧
        ∃ G, firstGradient s obj curvature
          (Regions.ofSlice n work (size_le_of_workLength_le hwork)) = .ok G := by
  have hsize : Regions.size n ≤ work.size := size_le_of_workLength_le hwork
  obtain ⟨stop, st, hends, hout⟩ :=
    ends_run s obj iterations curvature (Regions.ofSlice n work hsize)
  rw [solve_eq_run hn hiter hcurv hwork, hout, outcomeOf_eq_error, hends.workShortage_iff hiter]
  change (Regions.ofSlice n work hsize).eigWork.size <
    (Extractor.select n s.lanczosMinDim s.krylovDim s.epsZero s.maxIterEig).workLength n ∧ _ ↔ _
  rw [Regions.size_eigWork_ofSlice]
  by_cases hzero : s.lanczosMinDim ≤ n ∧ s.krylovDim = 0
  · rw [Extractor.workLength_select_of_zero _ _ hzero]
    constructor
    · rintro ⟨hshort, hG⟩
      exact ⟨hzero.1, hzero.2, by omega, hG⟩
    · rintro ⟨-, -, hshort, hG⟩
      exact ⟨by omega, hG⟩
  · rw [Extractor.workLength_select_of_ne n _ _ hzero]
    unfold workLength at hwork
    constructor
    · rintro ⟨hshort, -⟩
      omega
    · rintro ⟨hdim, hkrylov, -⟩
      exact absurd ⟨hdim, hkrylov⟩ hzero

/-- In a slice of exactly the length that is asked for, a Krylov dimension of zero is always too
much. -/
theorem solve_workShortage_iff_of_size_eq (hn : 0 < n) (hiter : 0 < iterations)
    (hcurv : ∀ c ∈ curvature, 0 < c) (hwork : work.size = workLength s n) :
    (solve s obj iterations curvature work).outcome = .error (.error .workShortage) ↔
      s.lanczosMinDim ≤ n ∧ s.krylovDim = 0 ∧
        ∃ G, firstGradient s obj curvature
          (Regions.ofSlice n work (size_le_of_workLength_le (Nat.le_of_eq hwork.symm)))
            = .ok G := by
  rw [solve_workShortage_iff hn hiter hcurv (Nat.le_of_eq hwork.symm)]
  refine and_congr_right fun hdim => and_congr_right fun hkrylov => ?_
  have hshort : work.size < Regions.size n + Lanczos.workLength n 1 := by
    rw [hwork, workLength, Extractor.selectWorkLength_of_zero ⟨hdim, hkrylov⟩,
      Extractor.lanczosWorkLength_one hn]
    omega
  exact and_iff_right hshort

end FrankWolfe

/-! ## The slices of problems that own one -/

open FrankWolfe

omit [Scalar α] in
theorem size_resize_work (s : Settings α) (work : Array α) (zero : α) :
    (Workspace.resize work (workLength s n) zero).size = workLength s n :=
  Workspace.size_resize work _ zero

/-- The regions that a solve finds in a slice which has been resized for it. -/
def preparedRegions (s : Settings α) (n : ℕ) (work : Array α) : Regions α n :=
  Regions.ofSlice n (Workspace.resize work (workLength s n) 0)
    (size_le_of_workLength_le (Nat.le_of_eq (size_resize_work s work 0).symm))

theorem BoundedTrace.solve_workShortage_iff (p : BoundedTrace α n) (s : Settings α) (hn : 0 < n)
    (hiter : 0 < p.iterations) (hcurv : ∀ c ∈ p.curvature, 0 < c) :
    (p.solve s s).1.outcome = .error (.error .workShortage) ↔
      s.lanczosMinDim ≤ n ∧ s.krylovDim = 0 ∧
        ∃ G, firstGradient s (p.objective.after p.calls) p.curvature
          (preparedRegions s n p.work) = .ok G :=
  solve_workShortage_iff_of_size_eq hn hiter hcurv (size_resize_work s p.work 0)

theorem Feasibility.solveAt_workShortage_iff (p : Feasibility α) (par : SearchSettings α)
    {scale : α} (hscale : Bracket.admissible scale) (hcurv : ∀ c ∈ par.curvature, 0 < c) :
    (p.solveAt par scale).outcome = .error (.error .workShortage) ↔
      par.solver.lanczosMinDim ≤ p.system.dim ∧ par.solver.krylovDim = 0 ∧
        ∃ G, firstGradient par.solver (p.system.objectiveAt scale) par.curvature
          (preparedRegions par.solver p.system.dim p.work) = .ok G := by
  have hrun : (runAt p.system par p.work scale).outcome = .error (.error .workShortage) ↔ _ :=
    solve_workShortage_iff_of_size_eq p.system.dim_pos p.system.iterations_pos hcurv
      (size_resize_work par.solver p.work 0)
  refine Iff.trans ⟨?_, solveScale_of_run_error hscale⟩ hrun
  intro h
  rcases solveScale_error_cases hscale h with hshort | hfinite
  · exact hshort
  · cases hfinite

/-- **What is asked for and what is required.** The length that is asked for covers what the
extractor checks unless the Lanczos extractor is chosen with a Krylov dimension of zero. Then, and
only then, can a solve with admissible arguments run short in a slice that is as long as asked for,
and in one that a problem has prepared for it; and it does as soon as its first gradient is not
refused. -/
theorem workShortage_iff_krylovDim_eq_zero (α : Type) [Scalar α] :
    (∀ (n : ℕ) (s : Settings α), 0 < n →
      ((Extractor.select n s.lanczosMinDim s.krylovDim s.epsZero s.maxIterEig).workLength n
          ≤ Extractor.selectWorkLength n s.lanczosMinDim s.krylovDim ↔
        ¬(s.lanczosMinDim ≤ n ∧ s.krylovDim = 0))) ∧
    (∀ (n : ℕ) (s : Settings α) (obj : Objective α n) (iterations : ℕ) (curvature : Option α)
      (work : Array α) (hwork : workLength s n ≤ work.size),
      0 < n → 0 < iterations → (∀ c ∈ curvature, 0 < c) →
      ((FrankWolfe.solve s obj iterations curvature work).outcome = .error (.error .workShortage) ↔
        s.lanczosMinDim ≤ n ∧ s.krylovDim = 0 ∧
          work.size < Regions.size n + Lanczos.workLength n 1 ∧
          ∃ G, firstGradient s obj curvature
            (Regions.ofSlice n work (size_le_of_workLength_le hwork)) = .ok G)) ∧
    (∀ (n : ℕ) (s : Settings α) (p : BoundedTrace α n), 0 < n → 0 < p.iterations →
      (∀ c ∈ p.curvature, 0 < c) →
      ((p.solve s s).1.outcome = .error (.error .workShortage) ↔
        s.lanczosMinDim ≤ n ∧ s.krylovDim = 0 ∧
          ∃ G, firstGradient s (p.objective.after p.calls) p.curvature
            (preparedRegions s n p.work) = .ok G)) ∧
    (∀ (p : Feasibility α) (par : SearchSettings α) (scale : α), Bracket.admissible scale →
      (∀ c ∈ par.curvature, 0 < c) →
      ((p.solveAt par scale).outcome = .error (.error .workShortage) ↔
        par.solver.lanczosMinDim ≤ p.system.dim ∧ par.solver.krylovDim = 0 ∧
          ∃ G, firstGradient par.solver (p.system.objectiveAt scale) par.curvature
            (preparedRegions par.solver p.system.dim p.work) = .ok G)) := by
  refine ⟨?_, ?_, ?_, ?_⟩
  · intro n s hn
    exact Extractor.workLength_select_le_iff hn _ _ _ _
  · intro n s obj iterations curvature work hwork hn hiter hcurv
    exact FrankWolfe.solve_workShortage_iff hn hiter hcurv hwork
  · intro n s p hn hiter hcurv
    exact p.solve_workShortage_iff s hn hiter hcurv
  · intro p par scale hscale hcurv
    exact p.solveAt_workShortage_iff par hscale hcurv

/-- With the default settings, a solve in dimension three does not run short of what it asks for. -/
theorem default_not_workShortage :
    (0 < 3 ∧ 0 < 5) ∧
      (FrankWolfe.solve Settings.default (Objective.diagonalSquares : Objective ℝ 3) 5 none
        (Array.replicate (workLength (Settings.default : Settings ℝ) 3) 0)).outcome
          ≠ .error (.error .workShortage) := by
  refine ⟨by decide, ?_⟩
  intro h
  have hwork : workLength (Settings.default : Settings ℝ) 3 ≤
      (Array.replicate (workLength (Settings.default : Settings ℝ) 3) (0 : ℝ)).size := by simp
  have hiff := (workShortage_iff_krylovDim_eq_zero ℝ).2.1 3 Settings.default
    Objective.diagonalSquares 5 none _ hwork (by decide) (by decide) (fun c hc => by cases hc)
  obtain ⟨-, hkrylov, -⟩ := hiff.1 h
  exact absurd hkrylov (by decide)

/-- The settings of a solve in dimension one with a Krylov dimension of zero. -/
noncomputable def zeroKrylovSettings : Settings ℝ :=
  { Settings.default with krylovDim := 0, lanczosMinDim := 1 }

/-- A solve asks for four entries, is given them, and runs short. -/
theorem zeroKrylov_workShortage :
    workLength zeroKrylovSettings 1 = 4 ∧
      (FrankWolfe.solve zeroKrylovSettings (Objective.linear #[1] : Objective ℝ 1) 1 none
        (Array.replicate 4 0)).outcome = .error (.error .workShortage) := by
  have hlength : workLength zeroKrylovSettings 1 = 4 := rfl
  have hsize : (Array.replicate 4 (0 : ℝ)).size = workLength zeroKrylovSettings 1 := by
    simp [hlength]
  refine ⟨hlength, ?_⟩
  rw [solve_workShortage_iff_of_size_eq Nat.one_pos Nat.one_pos (fun c hc => by cases hc) hsize]
  refine ⟨le_rfl, rfl, Mat.ofArray #[1] rfl, symmetricGradient_of_isSymm rfl ?_ ?_⟩
  · ext r c
    rw [Subsingleton.elim r c, Matrix.transpose_apply]
  · exact (tenToMinus_pos 8).le

end Spectrahedron
