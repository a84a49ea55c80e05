import Mathlib.Data.Nat.Notation
import Spectrahedron.FrankWolfe

/-!
# Runs of the solver

A run is a chain of iterations that succeed, followed by one that fails or by the end. The relation
`Reaches` holds of the states along such a chain, with the course so far; a fact about all of them
is proved by induction on it, with one case for the start and one for an iteration.

**Theorem (`ends_run`).** A solve with admissible arguments ends in a state that its iterations
reach, or in the iteration that fails there.
-/

namespace Spectrahedron.FrankWolfe

open Scalar

variable {α : Type} [Scalar α] {n : ℕ}

/-! ## One iteration -/

/-- The gradient of iteration `k`, made symmetric, or the reason why it is refused. -/
def symmetricGradient (p : Problem α n) (k : ℕ) (st : State α n) : Except Stop (Mat α n n) :=
  match p.objective.gradient k st.regions.point st.regions.gradient with
  | .error f => .error (.fault f)
  | .ok g =>
    match symmetrize p.settings.epsZero p.settings.epsSym g with
    | .error (e, _) => .error (.error e)
    | .ok G => .ok G

/-- The extraction of iteration `k` from a symmetric gradient. -/
def extraction (p : Problem α n) (k : ℕ) (st : State α n) (G : Mat α n n) :
    Extraction α n (Array α) :=
  p.extractor.topEig G (eigTolerance p.settings p.curvature k)
    (st.random.fill (· - 1 / two) st.regions.direction).1 st.regions.eigWork

/-- The regions after a step with the gradient `G`. -/
def stepped (p : Problem α n) (k : ℕ) (st : State α n) (G : Mat α n n) : Regions α n where
  point := move (stepSize k) (extraction p k st G).vec st.regions.point
  gradient := G
  direction := (extraction p k st G).vec
  eigWork := (extraction p k st G).work

variable {p : Problem α n} {k : ℕ} {st : State α n}

theorem advance_of_gradient_error {stop : Stop} (h : symmetricGradient p k st = .error stop) :
    (advance p k st).outcome = .error stop := by
  unfold symmetricGradient at h
  unfold advance
  cases hg : p.objective.gradient k st.regions.point st.regions.gradient with
  | error f =>
    simp only [hg] at h
    cases h
    rfl
  | ok g =>
    cases hsym : symmetrize p.settings.epsZero p.settings.epsSym g with
    | error refusal =>
      simp only [hg, hsym] at h
      cases h
      simp only [hsym]
    | ok G =>
      simp only [hg, hsym] at h
      cases h

theorem advance_of_gradient_ok {G : Mat α n n} (h : symmetricGradient p k st = .ok G) :
    advance p k st = ascend p k ⟨{ st.regions with gradient := G }, st.random⟩ := by
  unfold symmetricGradient at h
  unfold advance
  cases hg : p.objective.gradient k st.regions.point st.regions.gradient with
  | error f =>
    simp only [hg] at h
    cases h
  | ok g =>
    cases hsym : symmetrize p.settings.epsZero p.settings.epsSym g with
    | error refusal =>
      simp only [hg, hsym] at h
      cases h
    | ok G' =>
      simp only [hg, hsym] at h
      cases h
      simp only [hsym]

theorem advance_of_extraction_error {G : Mat α n n} (hG : symmetricGradient p k st = .ok G)
    {stop : Stop} (h : (extraction p k st G).outcome = .error stop) :
    (advance p k st).outcome = .error stop := by
  rw [advance_of_gradient_ok hG]
  unfold extraction at h
  simp only [ascend, h]

theorem advance_of_extraction_ok {G : Mat α n n} (hG : symmetricGradient p k st = .ok G)
    {value : α} (h : (extraction p k st G).outcome = .ok value) :
    (advance p k st).outcome = .ok ⟨value, stepSize k, eigTolerance p.settings p.curvature k⟩ ∧
      (advance p k st).state.regions = stepped p k st G := by
  rw [advance_of_gradient_ok hG]
  unfold extraction at h
  simp only [ascend, h, stepped, extraction, and_self]

/-- What an iteration that succeeds has done. -/
theorem exists_of_advance_ok {f : Figures α} (h : (advance p k st).outcome = .ok f) :
    ∃ G value, symmetricGradient p k st = .ok G ∧ (extraction p k st G).outcome = .ok value ∧
      (advance p k st).state.regions = stepped p k st G := by
  cases hG : symmetricGradient p k st with
  | error stop =>
    rw [advance_of_gradient_error hG] at h
    cases h
  | ok G =>
    cases he : (extraction p k st G).outcome with
    | error stop =>
      rw [advance_of_extraction_error hG he] at h
      cases h
    | ok value => exact ⟨G, value, rfl, he, (advance_of_extraction_ok hG he).2⟩

/-- An iteration fails with its gradient or with its extraction. -/
theorem advance_error_cases {stop : Stop} (h : (advance p k st).outcome = .error stop) :
    symmetricGradient p k st = .error stop ∨
      ∃ G, symmetricGradient p k st = .ok G ∧ (extraction p k st G).outcome = .error stop := by
  cases hG : symmetricGradient p k st with
  | error stop' =>
    rw [advance_of_gradient_error hG] at h
    cases h
    exact Or.inl rfl
  | ok G =>
    cases he : (extraction p k st G).outcome with
    | error stop' =>
      rw [advance_of_extraction_error hG he] at h
      cases h
      exact Or.inr ⟨G, rfl, he⟩
    | ok value =>
      rw [(advance_of_extraction_ok hG he).1] at h
      cases h

/-! ## Chains of iterations -/

/-- The course after an iteration that succeeds. -/
def Course.extend (c : Course α n) (before after : Regions α n) : Course α n where
  visited := c.visited.push before.point
  gradients := c.gradients.push after.gradient
  directions := c.directions.push after.direction

/-- The states that `k` successful iterations from `st₀` lead to, with their course. -/
inductive Reaches (p : Problem α n) (st₀ : State α n) : ℕ → State α n → Course α n → Prop
  | start : Reaches p st₀ 0 st₀ {}
  | step {k : ℕ} {st : State α n} {c : Course α n} {f : Figures α} :
      Reaches p st₀ k st c → (advance p k st).outcome = .ok f →
      Reaches p st₀ (k + 1) (advance p k st).state
        (c.extend st.regions (advance p k st).state.regions)

/-- The ends of runs of at most `total` iterations: the reason of a failure, the state and the
course. -/
inductive Ends (p : Problem α n) (st₀ : State α n) (total : ℕ) :
    Option Stop → State α n → Course α n → Prop
  | finished {st : State α n} {c : Course α n} :
      Reaches p st₀ total st c → Ends p st₀ total none st c
  | stopped {k : ℕ} {st : State α n} {c : Course α n} {stop : Stop} :
      Reaches p st₀ k st c → k < total → (advance p k st).outcome = .error stop →
      Ends p st₀ total (some stop) (advance p k st).state
        { c with visited := c.visited.push st.regions.point }

variable {st₀ : State α n} {c : Course α n}

theorem ends_iterate (total left : ℕ) {t : Trail α n} (h : Reaches p st₀ k st t.toCourse) :
    Ends p st₀ (k + left) (iterate p total left k st t).1 (iterate p total left k st t).2.1
      (iterate p total left k st t).2.2.toCourse := by
  induction left generalizing k st t with
  | zero => exact .finished h
  | succ left ih =>
    unfold iterate
    dsimp only
    split
    · rename_i stop hstop
      exact .stopped h (by omega) hstop
    · rename_i f hf
      rw [← Nat.succ_add_eq_add_succ]
      exact ih (.step h hf)

/-- The size of the course is the number of iterations. -/
theorem Reaches.size (h : Reaches p st₀ k st c) :
    c.visited.size = k ∧ c.gradients.size = k ∧ c.directions.size = k := by
  induction h with
  | start => exact ⟨rfl, rfl, rfl⟩
  | step _ _ ih => simp [Course.extend, ih]

/-- The course records, of every iteration, the matrix that it started from, its symmetric gradient
and the vector of its extraction. -/
theorem Reaches.recorded (h : Reaches p st₀ k st c) {i : ℕ} (hi : i < k) :
    ∃ st' G value, c.visited[i]? = some st'.regions.point ∧ symmetricGradient p i st' = .ok G ∧
      (extraction p i st' G).outcome = .ok value ∧ c.gradients[i]? = some G ∧
      c.directions[i]? = some (extraction p i st' G).vec := by
  induction h with
  | start => exact absurd hi (Nat.not_lt_zero i)
  | @step k st c f hreach hok ih =>
    obtain ⟨hX, hG, hv⟩ := hreach.size
    unfold Course.extend
    simp only [Array.getElem?_push, hX, hG, hv]
    rcases Nat.lt_succ_iff_lt_or_eq.1 hi with hlt | rfl
    · simp only [if_neg (Nat.ne_of_lt hlt)]
      exact ih hlt
    · obtain ⟨G, value, hgrad, hext, hregions⟩ := exists_of_advance_ok hok
      simp only [if_pos, hregions]
      exact ⟨st, G, value, rfl, hgrad, hext, rfl, rfl⟩

section Invariant

variable {P : Mat α n n → Prop} (hstart : P st₀.regions.point)
  (hstep : ∀ k st f, P st.regions.point → (advance p k st).outcome = .ok f →
    P (advance p k st).state.regions.point)

include hstart hstep

/-- What holds at the start and is kept by every successful iteration holds of every iterate, and of
all the matrices at which the gradient was asked for. -/
theorem Reaches.point_invariant (h : Reaches p st₀ k st c) :
    P st.regions.point ∧ ∀ X ∈ c.visited, P X := by
  induction h with
  | start => exact ⟨hstart, fun X hX => absurd hX (Array.not_mem_empty X)⟩
  | step _ hok ih =>
    refine ⟨hstep _ _ _ ih.1 hok, fun X hX => ?_⟩
    rcases Array.mem_push.1 hX with hX | rfl
    · exact ih.2 X hX
    · exact ih.1

/-- It holds of all that a run visits, also of one that fails, and of the solution of one that does
not. -/
theorem Ends.point_invariant {total : ℕ} {stop : Option Stop}
    (h : Ends p st₀ total stop st c) :
    (∀ X ∈ c.visited, P X) ∧ (stop = none → P st.regions.point) := by
  cases h with
  | finished hreach =>
    obtain ⟨hpoint, hvisited⟩ := hreach.point_invariant hstart hstep
    exact ⟨hvisited, fun _ => hpoint⟩
  | stopped hreach _ _ =>
    obtain ⟨hpoint, hvisited⟩ := hreach.point_invariant hstart hstep
    refine ⟨fun X hX => ?_, fun hnone => by cases hnone⟩
    rcases Array.mem_push.1 hX with hX | rfl
    · exact hvisited X hX
    · exact hpoint

end Invariant

/-! ## Solves -/

/-- The outcome that belongs to the end of a run. -/
def outcomeOf (stop : Option Stop) (st : State α n) : Except Stop (Mat α n n) :=
  match stop with
  | none => .ok st.regions.point
  | some stop => .error stop

theorem ends_run (s : Settings α) (obj : Objective α n) (iterations : ℕ) (curvature : Option α)
    (w : Regions α n) :
    ∃ stop st, Ends (problem s obj curvature) (initialState s w) iterations stop st
        (run s obj iterations curvature w).trail.toCourse ∧
      (run s obj iterations curvature w).outcome = outcomeOf stop st := by
  have hstart : Reaches (problem s obj curvature) (initialState s w) 0 (initialState s w) {} :=
    .start
  have h := ends_iterate iterations iterations
    (t := ⟨{}, #[.settings s, .initializing,
      .extractorChosen (problem s obj curvature).extractor.name, .iterating]⟩) hstart
  rw [Nat.zero_add] at h
  unfold run
  dsimp only
  rcases hend : iterate (problem s obj curvature) iterations iterations 0 (initialState s w) _
    with ⟨_ | stop, st, t⟩
  · rw [hend] at h
    exact ⟨none, st, h, rfl⟩
  · rw [hend] at h
    exact ⟨some stop, st, h, rfl⟩

/-- A solve runs when its arguments are admissible. -/
theorem solve_eq_run {s : Settings α} {obj : Objective α n} {iterations : ℕ}
    {curvature : Option α} {work : Array α} (hn : 0 < n) (hiter : 0 < iterations)
    (hcurv : ∀ c ∈ curvature, 0 < c) (hwork : workLength s n ≤ work.size) :
    solve s obj iterations curvature work = run s obj iterations curvature
      (Regions.ofSlice n work (Nat.le_trans (Nat.le_add_right _ _) hwork)) := by
  have hfilter : (curvature.filter fun c => ¬0 < c) = none := by
    rw [Option.filter_eq_none_iff]
    intro c hc
    simpa using hcurv c hc
  unfold solve
  rw [if_neg (by omega), hfilter]
  exact dif_pos hwork

/-- Otherwise it refuses them, and asks for no gradient. -/
theorem solve_refused {s : Settings α} {obj : Objective α n} {iterations : ℕ}
    {curvature : Option α} {work : Array α}
    (h : ¬(0 < n ∧ 0 < iterations ∧ (∀ c ∈ curvature, 0 < c) ∧ workLength s n ≤ work.size)) :
    (∃ e, (solve s obj iterations curvature work).outcome = .error (.error e)) ∧
      (solve s obj iterations curvature work).trail.toCourse = {} := by
  unfold solve
  split
  · exact ⟨⟨_, rfl⟩, rfl⟩
  · split
    · exact ⟨⟨_, rfl⟩, rfl⟩
    · rename_i hpos hfilter
      split
      · rename_i hwork
        refine absurd ⟨by omega, by omega, fun c hc => ?_, hwork⟩ h
        simpa using Option.filter_eq_none_iff.1 hfilter c hc
      · exact ⟨⟨_, rfl⟩, rfl⟩

/-- A solve ends as the run that it is, or has asked for no gradient. -/
theorem solve_cases (s : Settings α) (obj : Objective α n) (iterations : ℕ) (curvature : Option α)
    (work : Array α) :
    (∃ (hwork : Regions.size n ≤ work.size) (stop : Option Stop) (st : State α n),
      (0 < n ∧ 0 < iterations) ∧
        Ends (problem s obj curvature) (initialState s (Regions.ofSlice n work hwork)) iterations
          stop st (solve s obj iterations curvature work).trail.toCourse ∧
        (solve s obj iterations curvature work).outcome = outcomeOf stop st) ∨
      ((∃ e, (solve s obj iterations curvature work).outcome = .error (.error e)) ∧
        (solve s obj iterations curvature work).trail.toCourse = {}) := by
  by_cases hargs : 0 < n ∧ 0 < iterations ∧ (∀ c ∈ curvature, 0 < c) ∧ workLength s n ≤ work.size
  · obtain ⟨hn, hiter, hcurv, hwork⟩ := hargs
    have hsize : Regions.size n ≤ work.size := Nat.le_trans (Nat.le_add_right _ _) hwork
    obtain ⟨stop, st, hends, hout⟩ :=
      ends_run s obj iterations curvature (Regions.ofSlice n work hsize)
    rw [solve_eq_run hn hiter hcurv hwork]
    exact Or.inl ⟨hsize, stop, st, ⟨hn, hiter⟩, hends, hout⟩
  · exact Or.inr (solve_refused hargs)

/-- A solve that returns has run all of its iterations. -/
theorem reaches_of_solve_ok {s : Settings α} {obj : Objective α n} {iterations : ℕ}
    {curvature : Option α} {work : Array α} {X : Mat α n n}
    (h : (solve s obj iterations curvature work).outcome = .ok X) :
    ∃ (hwork : Regions.size n ≤ work.size) (st : State α n), 0 < n ∧
      Reaches (problem s obj curvature) (initialState s (Regions.ofSlice n work hwork)) iterations
        st (solve s obj iterations curvature work).trail.toCourse ∧ X = st.regions.point := by
  rcases solve_cases s obj iterations curvature work with
    ⟨hwork, stop, st, ⟨hn, -⟩, hends, hout⟩ | ⟨⟨e, he⟩, -⟩
  · rw [hout] at h
    generalize (solve s obj iterations curvature work).trail.toCourse = c at hends ⊢
    cases hends with
    | finished hreach =>
      cases h
      exact ⟨hwork, st, hn, hreach, rfl⟩
    | stopped => cases h
  · rw [he] at h
    cases h

/-- What holds of every starting point and is kept by every successful iteration holds of all that a
solve visits and of its solution. -/
theorem solve_point_invariant {P : Mat α n n → Prop} {s : Settings α} {obj : Objective α n}
    {iterations : ℕ} {curvature : Option α} {work : Array α}
    (hstart : 0 < n → ∀ w, P (initialState s w).regions.point)
    (hstep : 0 < n → ∀ k st f, P st.regions.point →
      (advance (problem s obj curvature) k st).outcome = .ok f →
      P (advance (problem s obj curvature) k st).state.regions.point) :
    (∀ X ∈ (solve s obj iterations curvature work).trail.visited, P X) ∧
      ∀ X, (solve s obj iterations curvature work).outcome = .ok X → P X := by
  rcases solve_cases s obj iterations curvature work with
    ⟨hwork, stop, st, ⟨hn, -⟩, hends, hout⟩ | ⟨⟨e, he⟩, hcourse⟩
  · obtain ⟨hvisited, hpoint⟩ := hends.point_invariant (hstart hn _) (hstep hn)
    refine ⟨hvisited, fun X hX => ?_⟩
    rw [hout] at hX
    cases stop with
    | none =>
      cases hX
      exact hpoint rfl
    | some stop => cases hX
  · refine ⟨fun X hX => ?_, fun X hX => ?_⟩
    · rw [hcourse] at hX
      exact absurd hX (Array.not_mem_empty X)
    · rw [he] at hX
      cases hX

end Spectrahedron.FrankWolfe
