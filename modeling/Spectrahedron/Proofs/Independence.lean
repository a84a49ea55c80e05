import Spectrahedron.Proofs.Overwriting

/-!
# Solves do not depend on what the work slice holds

A solve writes every region of its slice before it reads it, if the objective does so with the
gradient. So two solves that differ in nothing but the slice go through the same iterates, and end
in the same way. What lies beyond the required length is left alone.

A problem that owns its slice can be used again and again: the slices of earlier solves, and the
lengths and failures of those, are not seen.

**Theorem (`FrankWolfe.solve_independent_of_work`).** These hold of all solves whose settings admit
a Krylov basis.
-/

namespace Spectrahedron

open Scalar

variable {α : Type} {n : ℕ}

/-! ## Objectives -/

/-- The gradient at a matrix is one, however often it is asked for, and is written over all that it
finds. -/
def Objective.Overwrites (obj : Objective α n) : Prop :=
  ∀ calls calls' x old old', obj.gradient calls x old = obj.gradient calls' x old'

theorem Objective.Overwrites.after_eq {obj : Objective α n} (h : obj.Overwrites) (calls : ℕ) :
    obj.after calls = obj := by
  cases obj with
  | mk value gradient =>
    unfold Objective.after
    congr 1
    funext k x old
    exact h _ _ _ _ _

/-! ## What lies beyond the required length -/

section Beyond

variable [Scalar α]

omit [Scalar α] in
theorem Workspace.getElem?_append_rest {front work : Array α} {len i : ℕ}
    (hfront : front.size = len) (hi : len ≤ i) : (front ++ Workspace.rest work len)[i]? = work[i]? := by
  rw [Array.getElem?_append_right (hfront.trans_le hi), hfront, Workspace.rest,
    Array.getElem?_extract, Nat.add_sub_cancel' hi]
  split
  · rfl
  · rename_i hge
    exact (Array.getElem?_eq_none (by omega)).symm

theorem Extractor.getElem?_topEig_work (e : Extractor α) (G : Mat α n n) (tol : α)
    (vec : Vector α n) (work : Array α) {i : ℕ} (hi : e.workLength n ≤ i) :
    (e.topEig G tol vec work).work[i]? = work[i]? := by
  cases e with
  | dense d =>
    unfold topEig
    dsimp only
    split
    · exact Workspace.getElem?_append_rest (Dense.Regions.size_toArray _) hi
    · rfl
  | lanczos l =>
    unfold topEig
    dsimp only
    split
    · exact Workspace.getElem?_append_rest (Krylov.size_toArray _) hi
    · rfl

namespace FrankWolfe

section Iterations

variable {p : Problem α n} {i : ℕ} (hi : p.extractor.workLength n ≤ i)

include hi

theorem getElem?_advance_eigWork (k : ℕ) (st : State α n) :
    (advance p k st).state.regions.eigWork[i]? = st.regions.eigWork[i]? := by
  unfold advance
  split
  · rfl
  · split
    · rfl
    · unfold ascend
      dsimp only
      split <;> exact Extractor.getElem?_topEig_work _ _ _ _ _ hi

theorem getElem?_iterate_eigWork (total left k : ℕ) (st : State α n) (t : Trail α n) :
    (iterate p total left k st t).2.1.regions.eigWork[i]? = st.regions.eigWork[i]? := by
  induction left generalizing k st t with
  | zero => rfl
  | succ left ih =>
    unfold iterate
    dsimp only
    split
    · exact getElem?_advance_eigWork hi k st
    · rw [ih, getElem?_advance_eigWork hi]

end Iterations

omit [Scalar α] in
theorem Regions.getElem?_toArray (w : Regions α n) (i : ℕ) :
    w.toArray[Regions.size n + i]? = w.eigWork[i]? := by
  have hfront : (w.point.toArray ++ w.gradient.toArray ++ w.direction.toArray).size
      = Regions.size n := by
    simp only [Regions.size, Array.size_append, Mat.size_toArray, Vector.size_toArray]
  unfold toArray
  rw [Array.getElem?_append_right (hfront.trans_le (Nat.le_add_right _ _)), hfront,
    Nat.add_sub_cancel_left]

omit [Scalar α] in
theorem Regions.getElem?_eigWork_ofSlice (work : Array α) (h : Regions.size n ≤ work.size) (i : ℕ) :
    (Regions.ofSlice n work h).eigWork[i]? = work[Regions.size n + i]? := by
  show (Workspace.rest work (Regions.size n))[i]? = _
  rw [Workspace.rest, Array.getElem?_extract]
  split
  · rfl
  · rename_i hge
    exact (Array.getElem?_eq_none (by omega)).symm

/-- The length at which a slice is never too short. -/
def requiredLength (s : Settings α) (n : ℕ) : ℕ :=
  Regions.size n +
    (Extractor.select n s.lanczosMinDim s.krylovDim s.epsZero s.maxIterEig).workLength n

omit [Scalar α] in
theorem requiredLength_eq (s : Settings α) (n : ℕ) (hs : 0 < s.krylovDim) :
    requiredLength s n = workLength s n := by
  unfold requiredLength workLength
  rw [Extractor.workLength_select_of_ne n _ _ fun h => hs.ne' h.2]

omit [Scalar α] in
theorem workLength_le_requiredLength (s : Settings α) (n : ℕ) :
    workLength s n ≤ requiredLength s n := by
  unfold workLength requiredLength
  by_cases hzero : s.lanczosMinDim ≤ n ∧ s.krylovDim = 0
  · rw [Extractor.workLength_select_of_zero _ _ hzero, Extractor.selectWorkLength_of_zero hzero]
    simp only [Lanczos.workLength, Krylov.size]
    omega
  · rw [Extractor.workLength_select_of_ne n _ _ hzero]

/-- What a solve finds beyond the required length is there at its end. -/
theorem getElem?_solve_work (s : Settings α) (obj : Objective α n) (iterations : ℕ)
    (curvature : Option α) (work : Array α) {i : ℕ} (hi : requiredLength s n ≤ i) :
    (solve s obj iterations curvature work).work[i]? = work[i]? := by
  unfold solve
  split
  · rfl
  · split
    · rfl
    · split
      · rename_i hwork
        obtain ⟨j, rfl⟩ := Nat.exists_eq_add_of_le ((Nat.le_add_right _ _).trans hi)
        have hj : (problem s obj curvature).extractor.workLength n ≤ j :=
          Nat.le_of_add_le_add_left hi
        rw [← Regions.getElem?_eigWork_ofSlice work (size_le_of_workLength_le hwork)]
        unfold run
        dsimp only
        have hiterate := getElem?_iterate_eigWork hj iterations iterations 0
          (initialState s (Regions.ofSlice n work (size_le_of_workLength_le hwork)))
          ⟨{}, #[.settings s, .initializing,
            .extractorChosen (problem s obj curvature).extractor.name, .iterating]⟩
        split
        all_goals
          rename_i heq
          rw [heq] at hiterate
          exact (Regions.getElem?_toArray _ j).trans hiterate
      · rfl

end FrankWolfe

end Beyond

/-! ## Two runs -/

namespace FrankWolfe

/-- Two states that lead to the same run: they differ in the gradient, in the direction, which both
are to be overwritten, and in work slices that serve equally well. -/
structure State.Alike (required : ℕ) (st st' : State ℝ n) : Prop where
  point : st.regions.point = st'.regions.point
  random : st.random = st'.random
  eigWork : Workspace.Interchangeable required st.regions.eigWork st'.regions.eigWork

/-- Two iterations that do the same. -/
structure Advance.Alike (required : ℕ) (r r' : Advance ℝ n) : Prop where
  outcome : r.outcome = r'.outcome
  events : r.events = r'.events
  state : State.Alike required r.state r'.state
  gradient : ∀ f, r.outcome = .ok f → r.state.regions.gradient = r'.state.regions.gradient
  direction : ∀ f, r.outcome = .ok f → r.state.regions.direction = r'.state.regions.direction

section TwoRuns

variable {p : Problem ℝ n} {st st' : State ℝ n}

theorem ascend_alike (h : State.Alike (p.extractor.workLength n) st st') (k : ℕ) (G : Mat ℝ n n) :
    Advance.Alike (p.extractor.workLength n)
      (ascend p k ⟨{ st.regions with gradient := G }, st.random⟩)
      (ascend p k ⟨{ st'.regions with gradient := G }, st'.random⟩) := by
  obtain ⟨hpoint, hrandom, hwork⟩ := h
  have hfill := Xoshiro.fill_congr (· - 1 / two) st.regions.direction st'.regions.direction
    st'.random
  have hanswer := Extractor.answer_topEig p.extractor G (eigTolerance p.settings p.curvature k)
    (st'.random.fill (· - 1 / two) st'.regions.direction).1 hwork
  have hsize := Extractor.size_topEig_work p.extractor G (eigTolerance p.settings p.curvature k)
    (st'.random.fill (· - 1 / two) st'.regions.direction).1 st.regions.eigWork
  have hsize' := Extractor.size_topEig_work p.extractor G (eigTolerance p.settings p.curvature k)
    (st'.random.fill (· - 1 / two) st'.regions.direction).1 st'.regions.eigWork
  unfold ascend
  dsimp only
  rw [hrandom, hfill, hpoint]
  generalize p.extractor.topEig G _ _ st.regions.eigWork = e at hanswer hsize
  generalize p.extractor.topEig G _ _ st'.regions.eigWork = e' at hanswer hsize'
  have hsame : Workspace.Interchangeable (p.extractor.workLength n) e.work e'.work := by
    unfold Workspace.Interchangeable
    rw [hsize, hsize']
    exact hwork
  obtain ⟨houtcome, hvec, -, hevents⟩ := Extraction.mk.injEq .. ▸ hanswer
  rw [houtcome, hvec, hevents]
  split
  · exact ⟨rfl, rfl, ⟨rfl, rfl, hsame⟩, fun _ _ => rfl, fun _ _ => rfl⟩
  · exact ⟨rfl, rfl, ⟨rfl, rfl, hsame⟩, fun _ _ => rfl, fun _ _ => rfl⟩

theorem advance_alike (hobj : p.objective.Overwrites)
    (h : State.Alike (p.extractor.workLength n) st st') (k : ℕ) :
    Advance.Alike (p.extractor.workLength n) (advance p k st) (advance p k st') := by
  unfold advance
  rw [h.point, hobj k k st'.regions.point st.regions.gradient st'.regions.gradient]
  split
  · exact ⟨rfl, rfl, h, fun _ hf => (by cases hf), fun _ hf => (by cases hf)⟩
  · split
    · exact ⟨rfl, rfl, ⟨h.point, h.random, h.eigWork⟩, fun _ _ => rfl, fun _ hf => (by cases hf)⟩
    · exact ascend_alike h k _

theorem iterate_alike (hobj : p.objective.Overwrites) (total left : ℕ)
    (h : State.Alike (p.extractor.workLength n) st st') (k : ℕ) (t : Trail ℝ n) :
    (iterate p total left k st t).1 = (iterate p total left k st' t).1 ∧
      (iterate p total left k st t).2.1.regions.point
        = (iterate p total left k st' t).2.1.regions.point ∧
      (iterate p total left k st t).2.2 = (iterate p total left k st' t).2.2 := by
  induction left generalizing k st st' t with
  | zero => exact ⟨rfl, h.point, rfl⟩
  | succ left ih =>
    have hadvance := advance_alike hobj h k
    unfold iterate
    generalize advance p k st = r at hadvance
    generalize advance p k st' = r' at hadvance
    obtain ⟨houtcome, hevents, hstate, hgradient, hdirection⟩ := hadvance
    dsimp only
    rw [h.point, houtcome, hevents]
    cases hr : r'.outcome with
    | error stop => exact ⟨rfl, hstate.point, rfl⟩
    | ok f =>
      have hok : r.outcome = .ok f := houtcome.trans hr
      dsimp only
      rw [hgradient f hok, hdirection f hok, hstate.point]
      exact ih hstate _ _

theorem initialState_alike (s : Settings ℝ) {required : ℕ} {w w' : Regions ℝ n}
    (h : Workspace.Interchangeable required w.eigWork w'.eigWork) :
    State.Alike required (initialState s w) (initialState s w') := by
  have hstart : startVector s.epsZero w.direction (.ofSeed s.seed)
      = startVector s.epsZero w'.direction (.ofSeed s.seed) := by
    unfold startVector
    rw [Xoshiro.fill_congr id w.direction w'.direction]
  unfold initialState
  rw [hstart]
  refine ⟨?_, rfl, h⟩
  dsimp only
  unfold startPoint
  rw [Mat.scale_zero_congr w.point w'.point]

end TwoRuns

variable {s : Settings ℝ} {obj : Objective ℝ n}

theorem run_congr (hobj : obj.Overwrites) (iterations : ℕ) (curvature : Option ℝ)
    {w w' : Regions ℝ n}
    (h : Workspace.Interchangeable ((problem s obj curvature).extractor.workLength n) w.eigWork
      w'.eigWork) :
    (run s obj iterations curvature w).outcome = (run s obj iterations curvature w').outcome ∧
      (run s obj iterations curvature w).trail = (run s obj iterations curvature w').trail := by
  obtain ⟨hstop, hpoint, htrail⟩ := iterate_alike (p := problem s obj curvature) hobj iterations
    iterations (initialState_alike s h) 0 ⟨{}, #[.settings s, .initializing,
      .extractorChosen (problem s obj curvature).extractor.name, .iterating]⟩
  unfold run
  dsimp only
  generalize iterate (problem s obj curvature) iterations iterations 0 (initialState s w) _ = r
    at hstop hpoint htrail ⊢
  generalize iterate (problem s obj curvature) iterations iterations 0 (initialState s w') _ = r'
    at hstop hpoint htrail ⊢
  obtain ⟨stop, st, t⟩ := r
  obtain ⟨stop', st', t'⟩ := r'
  dsimp only at hstop hpoint htrail
  subst hstop htrail
  cases stop with
  | some stop => exact ⟨rfl, rfl⟩
  | none =>
    dsimp only
    rw [hpoint]
    exact ⟨rfl, rfl⟩

/-- Two solves that differ in their slices only end in the same way, and leave the same trail. -/
theorem solve_congr (hobj : obj.Overwrites) (iterations : ℕ) (curvature : Option ℝ)
    {work work' : Array ℝ} (h : Workspace.Interchangeable (requiredLength s n) work work') :
    (solve s obj iterations curvature work).outcome
        = (solve s obj iterations curvature work').outcome ∧
      (solve s obj iterations curvature work).trail
        = (solve s obj iterations curvature work').trail := by
  have hfits : workLength s n ≤ work.size ↔ workLength s n ≤ work'.size := by
    have hle := workLength_le_requiredLength s n
    rcases h with hsize | ⟨hlong, hlong'⟩ <;> omega
  unfold solve
  split
  · exact ⟨rfl, rfl⟩
  · split
    · exact ⟨rfl, rfl⟩
    · by_cases hwork : workLength s n ≤ work.size
      · rw [dif_pos hwork, dif_pos (hfits.1 hwork)]
        refine run_congr hobj iterations curvature ?_
        unfold Workspace.Interchangeable
        rw [Regions.size_eigWork_ofSlice, Regions.size_eigWork_ofSlice]
        unfold requiredLength at h
        rcases h with hsize | ⟨hlong, hlong'⟩
        · exact Or.inl (by rw [hsize])
        · exact Or.inr ⟨Nat.le_sub_of_add_le' hlong, Nat.le_sub_of_add_le' hlong'⟩
      · have hsize : work.size = work'.size := by
          have hle := workLength_le_requiredLength s n
          rcases h with hsize | ⟨hlong, -⟩
          · exact hsize
          · omega
        rw [dif_neg hwork, dif_neg (mt hfits.2 hwork), hsize]
        exact ⟨rfl, rfl⟩

end FrankWolfe

/-! ## Problems that have been solved before -/

namespace BoundedTrace

/-- The problem as it is built, with nothing in its slice. -/
def fresh (p : BoundedTrace α n) : BoundedTrace α n where
  objective := p.objective
  iterations := p.iterations
  curvature := p.curvature

/-- The problem after a number of solves, each with its own settings and with those for which the
slice was prepared. -/
def after [Scalar α] (p : BoundedTrace α n) (earlier : List (Settings α × Settings α)) :
    BoundedTrace α n :=
  earlier.foldl (fun p settings => (p.solve settings.1 settings.2).2) p

theorem fresh_after [Scalar α] (p : BoundedTrace α n) (earlier : List (Settings α × Settings α)) :
    (p.after earlier).fresh = p.fresh := by
  induction earlier generalizing p with
  | nil => rfl
  | cons settings earlier ih => exact ih _

/-- Whatever a problem has been used for, its next solve is that of a problem just built. -/
theorem solve_eq_fresh {p : BoundedTrace ℝ n} (hobj : p.objective.Overwrites)
    (s query : Settings ℝ) :
    (p.solve s query).1.outcome = (p.fresh.solve s query).1.outcome ∧
      (p.solve s query).1.trail = (p.fresh.solve s query).1.trail := by
  have hsize : (Workspace.resize p.work (FrankWolfe.workLength query n) 0).size
      = (Workspace.resize #[] (FrankWolfe.workLength query n) (0 : ℝ)).size := by
    rw [size_resize_work, size_resize_work]
  have hcongr := FrankWolfe.solve_congr (s := s) hobj p.iterations p.curvature (Or.inl hsize)
  unfold solve solvePrepared prepare fresh
  dsimp only
  rw [hobj.after_eq, hobj.after_eq]
  exact hcongr

end BoundedTrace

/-- **No dependence on the contents of the work slice.** Two solves with slices of the length that
is asked for, or longer ones, end in the same way and ask for the same gradients; entries beyond
that length are kept. A problem that owns its slice answers as one that has just been built,
whatever has been solved on it before. -/
theorem FrankWolfe.solve_independent_of_work {obj : Objective ℝ n} (hobj : obj.Overwrites)
    {s : Settings ℝ} (hs : 0 < s.krylovDim) (iterations : ℕ) (curvature : Option ℝ) :
    (∀ work work' : Array ℝ, workLength s n ≤ work.size → workLength s n ≤ work'.size →
      (solve s obj iterations curvature work).outcome
          = (solve s obj iterations curvature work').outcome ∧
        (solve s obj iterations curvature work).trail.visited
          = (solve s obj iterations curvature work').trail.visited) ∧
    (∀ (work : Array ℝ) (i : ℕ), workLength s n ≤ work.size → workLength s n ≤ i →
      (solve s obj iterations curvature work).work[i]? = work[i]?) ∧
    (∀ (p : BoundedTrace ℝ n) (earlier : List (Settings ℝ × Settings ℝ)), p.objective = obj →
      ((p.after earlier).solve s s).1.outcome = (p.fresh.solve s s).1.outcome ∧
        ((p.after earlier).solve s s).1.trail.visited
          = (p.fresh.solve s s).1.trail.visited) := by
  refine ⟨?_, ?_, ?_⟩
  · intro work work' hwork hwork'
    rw [← requiredLength_eq s n hs] at hwork hwork'
    obtain ⟨houtcome, htrail⟩ := solve_congr hobj iterations curvature (Or.inr ⟨hwork, hwork'⟩)
    exact ⟨houtcome, by rw [htrail]⟩
  · intro work i _ hi
    exact getElem?_solve_work s obj iterations curvature work
      ((requiredLength_eq s n hs).trans_le hi)
  · intro p earlier hp
    have hobj' : (p.after earlier).fresh.objective.Overwrites := by
      rw [BoundedTrace.fresh_after, show p.fresh.objective = obj from hp]
      exact hobj
    obtain ⟨houtcome, htrail⟩ := BoundedTrace.solve_eq_fresh (p := p.after earlier) hobj' s s
    rw [houtcome, htrail, BoundedTrace.fresh_after]
    exact ⟨rfl, rfl⟩

theorem Objective.overwrites_diagonalSquares : (diagonalSquares : Objective ℝ n).Overwrites :=
  fun _ _ _ _ _ => rfl

/-- Four iterations in dimension three, with the Lanczos extractor: in a slice of sixty zeros, in
one of sixty-five sevens, of which the last one is kept, and on a problem that has been solved twice
before, the second time in vain. -/
theorem FrankWolfe.diagonalSquares_independent_of_work :
    ((Objective.diagonalSquares : Objective ℝ 3).Overwrites ∧
      0 < (Settings.default : Settings ℝ).krylovDim ∧
      workLength (Settings.default : Settings ℝ) 3 = 60) ∧
    (solve Settings.default (Objective.diagonalSquares : Objective ℝ 3) 4 none
        (Array.replicate 60 0)).outcome
      = (solve Settings.default (Objective.diagonalSquares : Objective ℝ 3) 4 none
        (Array.replicate 65 7)).outcome ∧
    (solve Settings.default (Objective.diagonalSquares : Objective ℝ 3) 4 none
        (Array.replicate 65 7)).work[64]? = some 7 ∧
    let p : BoundedTrace ℝ 3 := ⟨Objective.diagonalSquares, 4, none, #[], 0⟩
    ((p.after [(Settings.default, Settings.default),
        (zeroKrylovSettings, zeroKrylovSettings)]).solve Settings.default Settings.default).1.outcome
      = (p.solve Settings.default Settings.default).1.outcome := by
  have hlength : workLength (Settings.default : Settings ℝ) 3 = 60 := rfl
  have hkrylov : 0 < (Settings.default : Settings ℝ).krylovDim := by decide
  obtain ⟨hsolve, hkept, hproblem⟩ := solve_independent_of_work
    (Objective.overwrites_diagonalSquares (n := 3)) hkrylov 4 none
  refine ⟨⟨Objective.overwrites_diagonalSquares, hkrylov, hlength⟩, ?_, ?_, ?_⟩
  · exact (hsolve _ _ (by simp [hlength]) (by simp [hlength])).1
  · rw [hkept _ 64 (by simp [hlength]) (by simp [hlength])]
    simp
  · exact (hproblem _ _ rfl).1

end Spectrahedron
