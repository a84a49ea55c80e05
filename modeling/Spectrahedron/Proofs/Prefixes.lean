import Spectrahedron.Proofs.Diagonal
import Spectrahedron.Proofs.Listeners
import Spectrahedron.Proofs.Runs
import Spectrahedron.Proofs.Symmetrization

/-!
# Runs of different lengths

An iteration knows its own number, but not how many are to come: only the reports do. So the states
that the iterations reach depend on their number alone, and a run of more iterations begins as a run
of fewer.

**Theorem (`FrankWolfe.solve_lengths`).** A solve visits the matrices that a longer one visits first.
If it returns, its solution is the next of them; if it fails, the longer one fails in the same
iteration and for the same reason. Neither the period of the reports nor the listener matters.
-/

namespace Spectrahedron.FrankWolfe

open Scalar

variable {α : Type} [Scalar α] {n : ℕ}

/-! ## Chains of iterations -/

section Chains

variable {p : Problem α n} {st₀ st st' : State α n} {c c' : Course α n} {k k' : ℕ}

/-- The number of the iterations determines the state that they reach. -/
theorem Reaches.unique (h : Reaches p st₀ k st c) (h' : Reaches p st₀ k st' c') :
    st = st' ∧ c = c' := by
  induction h generalizing st' c' with
  | start =>
    cases h'
    exact ⟨rfl, rfl⟩
  | step _ _ ih =>
    cases h' with
    | step hreach' _ =>
      obtain ⟨rfl, rfl⟩ := ih hreach'
      exact ⟨rfl, rfl⟩

/-- On the way to a state each earlier iteration has succeeded, and what it started from has been
visited in its turn. -/
theorem Reaches.exists_of_lt (h : Reaches p st₀ k st c) (hlt : k' < k) :
    ∃ st' c' f, Reaches p st₀ k' st' c' ∧ (advance p k' st').outcome = .ok f ∧
      (c'.visited.push st'.regions.point).toList <+: c.visited.toList := by
  induction h with
  | start => exact absurd hlt (Nat.not_lt_zero k')
  | @step k st c f hreach hok ih =>
    rcases Nat.lt_succ_iff_lt_or_eq.1 hlt with hlt | rfl
    · obtain ⟨st', c', f', hreach', hok', hvisited⟩ := ih hlt
      refine ⟨st', c', f', hreach', hok', hvisited.trans ?_⟩
      rw [Course.extend, Array.toList_push]
      exact List.prefix_append _ _
    · exact ⟨st, c, f, hreach, hok, List.prefix_rfl⟩

/-- The iteration in which a run fails is not on the way to any state. -/
theorem Reaches.le_of_error (h : Reaches p st₀ k st c) {stop : Stop}
    (hstop : (advance p k st).outcome = .error stop) (h' : Reaches p st₀ k' st' c') : k' ≤ k := by
  by_contra hlt
  obtain ⟨_, _, _, hreach, hok, -⟩ := h'.exists_of_lt (not_le.1 hlt)
  obtain ⟨rfl, -⟩ := h.unique hreach
  cases hstop.symm.trans hok

end Chains

/-! ## Ends of runs -/

section Ends

variable {p : Problem α n} {st₀ st st' : State α n} {c c' : Course α n} {k total total' : ℕ}
  {stop stop' : Option Stop}

/-- A run that goes on from a state has visited what the iterations up to it have, and then the
matrix of the state. -/
theorem Ends.push_prefix (h : Ends p st₀ total stop st' c') (hreach : Reaches p st₀ k st c)
    (hlt : k < total) : (c.visited.push st.regions.point).toList <+: c'.visited.toList := by
  have hlater : ∀ {j st' c'}, Reaches p st₀ j st' c' → k < j →
      (c.visited.push st.regions.point).toList <+: c'.visited.toList := by
    intro j st' c' hreach' hkj
    obtain ⟨_, _, _, hearlier, -, hprefix⟩ := hreach'.exists_of_lt hkj
    obtain ⟨rfl, rfl⟩ := hreach.unique hearlier
    exact hprefix
  cases h with
  | finished hreach' => exact hlater hreach' hlt
  | stopped hreach' _ hstop =>
    rcases (hreach'.le_of_error hstop hreach).lt_or_eq with hkj | rfl
    · refine (hlater hreach' hkj).trans ?_
      rw [Array.toList_push]
      exact List.prefix_append _ _
    · obtain ⟨rfl, rfl⟩ := hreach.unique hreach'
      exact List.prefix_rfl

/-- A run ends in one way only. -/
theorem Ends.unique (h : Ends p st₀ total stop st c) (h' : Ends p st₀ total stop' st' c') :
    stop = stop' ∧ st = st' ∧ c = c' := by
  cases h with
  | finished hreach =>
    cases h' with
    | finished hreach' =>
      obtain ⟨rfl, rfl⟩ := hreach.unique hreach'
      exact ⟨rfl, rfl, rfl⟩
    | stopped hreach' hlt hstop => exact absurd (hreach'.le_of_error hstop hreach) (not_le.2 hlt)
  | stopped hreach hlt hstop =>
    cases h' with
    | finished hreach' => exact absurd (hreach.le_of_error hstop hreach') (not_le.2 hlt)
    | stopped hreach' _ hstop' =>
      obtain rfl := le_antisymm (hreach'.le_of_error hstop' hreach)
        (hreach.le_of_error hstop hreach')
      obtain ⟨rfl, rfl⟩ := hreach.unique hreach'
      cases hstop.symm.trans hstop'
      exact ⟨rfl, rfl, rfl⟩

/-- A run that fails does so whatever number of iterations is left. -/
theorem Ends.of_le {stop : Stop} (h : Ends p st₀ total (some stop) st c) (hle : total ≤ total') :
    Ends p st₀ total' (some stop) st c := by
  cases h with
  | stopped hreach hlt hstop => exact .stopped hreach (hlt.trans_le hle) hstop

/-- Runs of iterations that do the same end alike. -/
theorem Ends.congr {p' : Problem α n} (hp : ∀ k st, advance p k st = advance p' k st)
    (h : Ends p st₀ total stop st c) : Ends p' st₀ total stop st c := by
  have hreach : ∀ {k st c}, Reaches p st₀ k st c → Reaches p' st₀ k st c := by
    intro k st c h
    induction h with
    | start => exact .start
    | step _ hok ih =>
      rw [hp] at hok ⊢
      exact ih.step hok
  cases h with
  | finished h => exact .finished (hreach h)
  | stopped h hlt hstop =>
    rw [hp] at hstop ⊢
    exact .stopped (hreach h) hlt hstop

end Ends

/-! ## Beginnings of runs -/

/-- A run of `k` iterations is the beginning of one of `k'` iterations. -/
structure Run.Begins (r : Run α n) (k : ℕ) (r' : Run α n) (k' : ℕ) : Prop where
  /-- What it visits is visited first. -/
  visited : r.trail.visited.toList <+: r'.trail.visited.toList
  /-- If it returns, it has asked for `k` gradients, and the solution is visited next. -/
  solved : ∀ X, r.outcome = .ok X →
    r.trail.visited.size = k ∧ (k < k' → r'.trail.visited[k]? = some X)
  /-- If it fails, so does the other one, in the same iteration and for the same reason. -/
  failed : ∀ stop, r.outcome = .error stop →
    r'.outcome = .error stop ∧ r'.trail.visited = r.trail.visited

theorem getElem?_of_push_prefix {β : Type*} {xs ys : Array β} {x : β}
    (h : (xs.push x).toList <+: ys.toList) : ys[xs.size]? = some x := by
  obtain ⟨rest, hrest⟩ := h
  rw [← Array.getElem?_toList, ← hrest, Array.toList_push, List.append_assoc,
    List.getElem?_append_right (by simp)]
  simp

theorem Ends.begins {p : Problem α n} {st₀ st st' : State α n} {r r' : Run α n} {k k' : ℕ}
    {stop stop' : Option Stop} (h : Ends p st₀ k stop st r.trail.toCourse)
    (h' : Ends p st₀ k' stop' st' r'.trail.toCourse) (hout : r.outcome = outcomeOf stop st)
    (hout' : r'.outcome = outcomeOf stop' st') (hle : k ≤ k') : r.Begins k r' k' := by
  generalize hc : r.trail.toCourse = c at h
  generalize hc' : r'.trail.toCourse = c' at h'
  have hvisited : r.trail.visited = c.visited := congrArg Course.visited hc
  have hvisited' : r'.trail.visited = c'.visited := congrArg Course.visited hc'
  cases stop with
  | some stop =>
    -- The longer run fails in the same iteration, so the two runs are one.
    obtain ⟨rfl, rfl, rfl⟩ := (h.of_le hle).unique h'
    rw [← hvisited'] at hvisited
    refine ⟨hvisited ▸ List.prefix_rfl, fun X hX => ?_, fun stop' hstop' => ?_⟩
    · cases hout.symm.trans hX
    · exact ⟨hout'.trans (hout.symm.trans hstop'), hvisited.symm⟩
  | none =>
    -- The longer run goes on from the state that the shorter one reaches.
    obtain ⟨hreach⟩ := h
    have hpush : k < k' →
        (r.trail.visited.push st.regions.point).toList <+: r'.trail.visited.toList := by
      intro hlt
      rw [hvisited, hvisited']
      exact h'.push_prefix hreach hlt
    have hsize : r.trail.visited.size = k := hvisited ▸ hreach.size.1
    refine ⟨?_, fun X hX => ⟨hsize, fun hlt => ?_⟩, fun stop' hstop' => ?_⟩
    · rcases hle.lt_or_eq with hlt | rfl
      · refine List.IsPrefix.trans ?_ (hpush hlt)
        rw [Array.toList_push]
        exact List.prefix_append _ _
      · obtain ⟨-, -, rfl⟩ := (Ends.finished hreach).unique h'
        rw [hvisited, hvisited']
    · cases hout.symm.trans hX
      rw [← hsize]
      exact getElem?_of_push_prefix (hpush hlt)
    · cases hout.symm.trans hstop'

/-! ## Solves -/

/-- The arguments of a solve pass the checks, for any positive number of iterations. -/
def Admissible (s : Settings α) (n : ℕ) (curvature : Option α) (work : Array α) : Prop :=
  0 < n ∧ (∀ c ∈ curvature, 0 < c) ∧ workLength s n ≤ work.size

section Solves

variable {s : Settings α} {curvature : Option α} {work : Array α} {k k' : ℕ}

theorem Admissible.size_le (h : Admissible s n curvature work) : Regions.size n ≤ work.size :=
  size_le_of_workLength_le h.2.2

/-- The runs of all lengths have one start. -/
theorem Admissible.ends_solve (h : Admissible s n curvature work) (obj : Objective α n)
    (hk : 0 < k) :
    ∃ stop st, Ends (problem s obj curvature) (initialState s (Regions.ofSlice n work h.size_le)) k
        stop st (solve s obj k curvature work).trail.toCourse ∧
      (solve s obj k curvature work).outcome = outcomeOf stop st := by
  rw [solve_eq_run h.1 hk h.2.1 h.2.2]
  exact ends_run s obj k curvature (Regions.ofSlice n work h.size_le)

/-- A refusal has nothing to do with the number of iterations, if that is positive. -/
theorem exists_refusal (h : ¬Admissible s n curvature work) (obj : Objective α n) :
    ∃ e, ∀ k, 0 < k → (solve s obj k curvature work).outcome = .error (.error e) ∧
      (solve s obj k curvature work).trail.toCourse = {} := by
  rcases Nat.eq_zero_or_pos n with hn | hn
  · refine ⟨.invalidParam, fun k hk => ?_⟩
    unfold solve
    rw [if_pos (Or.inl hn)]
    exact ⟨rfl, rfl⟩
  · have hpos : ∀ {k}, 0 < k → ¬(n = 0 ∨ k = 0) := by omega
    cases hfilter : curvature.filter fun c => ¬0 < c with
    | some c =>
      refine ⟨.invalidParam, fun k hk => ?_⟩
      unfold solve
      rw [if_neg (hpos hk), hfilter]
      exact ⟨rfl, rfl⟩
    | none =>
      have hcurv : ∀ c ∈ curvature, 0 < c := fun c hc => by
        simpa using Option.filter_eq_none_iff.1 hfilter c hc
      refine ⟨.workShortage, fun k hk => ?_⟩
      unfold solve
      rw [if_neg (hpos hk), hfilter]
      dsimp only
      rw [dif_neg fun hwork => h ⟨hn, hcurv, hwork⟩]
      exact ⟨rfl, rfl⟩

theorem solve_begins (s : Settings α) (obj : Objective α n) (curvature : Option α)
    (work : Array α) (hk : 0 < k) (hle : k ≤ k') :
    (solve s obj k curvature work).Begins k (solve s obj k' curvature work) k' := by
  have hk' : 0 < k' := hk.trans_le hle
  by_cases hargs : Admissible s n curvature work
  · obtain ⟨stop, st, hends, hout⟩ := hargs.ends_solve obj hk
    obtain ⟨stop', st', hends', hout'⟩ := hargs.ends_solve obj hk'
    exact hends.begins hends' hout hout' hle
  · obtain ⟨e, he⟩ := exists_refusal hargs obj
    have hvisited : ∀ {k}, 0 < k → (solve s obj k curvature work).trail.visited = #[] :=
      fun hk => congrArg Course.visited (he _ hk).2
    refine ⟨?_, fun X hX => ?_, fun stop hstop => ⟨?_, ?_⟩⟩
    · rw [hvisited hk]
      exact List.nil_prefix
    · cases (he k hk).1.symm.trans hX
    · exact (he k' hk').1.trans ((he k hk).1.symm.trans hstop)
    · rw [hvisited hk, hvisited hk']

/-- A solve that fails in iteration `i` has asked for `i + 1` gradients; all shorter ones return. -/
theorem Admissible.exists_failed_iteration (h : Admissible s n curvature work)
    (obj : Objective α n) (hk : 0 < k) {stop : Stop}
    (hstop : (solve s obj k curvature work).outcome = .error stop) :
    ∃ i < k, (solve s obj k curvature work).trail.visited.size = i + 1 ∧
      ∀ j, 0 < j → j ≤ i → ∃ X, (solve s obj j curvature work).outcome = .ok X := by
  obtain ⟨stop', st, hends, hout⟩ := h.ends_solve obj hk
  generalize (solve s obj k curvature work).trail.toCourse = c at hends
  cases hends with
  | finished hreach => cases hout.symm.trans hstop
  | @stopped i _ c _ hreach hi hfail =>
    refine ⟨i, hi, ?_, fun j hj hji => ?_⟩
    · rw [Array.size_push, hreach.size.1]
    · obtain ⟨stop', st', hends', hout'⟩ := h.ends_solve obj hj
      generalize (solve s obj j curvature work).trail.toCourse = c' at hends'
      cases hends' with
      | finished => exact ⟨_, hout'⟩
      | stopped hreach' hj' hfail' =>
        exact absurd (hreach'.le_of_error hfail' hreach) (not_le.2 (hj'.trans_le hji))

/-- A solve ends with its first gradient when that is refused. -/
theorem Admissible.solve_of_gradient_error (h : Admissible s n curvature work)
    {obj : Objective α n} (hk : 0 < k) {stop : Stop}
    (hstop : ∀ st, symmetricGradient (problem s obj curvature) 0 st = .error stop) :
    (solve s obj k curvature work).outcome = .error stop := by
  obtain ⟨stop', st, hends, hout⟩ := h.ends_solve obj hk
  have hnever : ∀ {i st c}, Reaches (problem s obj curvature)
      (initialState s (Regions.ofSlice n work h.size_le)) i st c → i = 0 := by
    intro i st c hreach
    by_contra hi
    obtain ⟨st', c', f, -, hok, -⟩ := hreach.exists_of_lt (Nat.pos_of_ne_zero hi)
    cases (advance_of_gradient_error (hstop st')).symm.trans hok
  generalize (solve s obj k curvature work).trail.toCourse = c at hends
  cases hends with
  | finished hreach => exact absurd (hnever hreach) hk.ne'
  | @stopped i st _ _ hreach _ hfail =>
    obtain rfl := hnever hreach
    cases (advance_of_gradient_error (hstop st)).symm.trans hfail
    exact hout

/-- The iterations do not know how often they are reported. -/
theorem run_logPeriod (s : Settings α) (obj : Objective α n) (k : ℕ) (curvature : Option α)
    (w : Regions α n) (period : ℕ) :
    (run { s with logPeriod := period } obj k curvature w).outcome
        = (run s obj k curvature w).outcome ∧
      (run { s with logPeriod := period } obj k curvature w).trail.toCourse
        = (run s obj k curvature w).trail.toCourse := by
  obtain ⟨stop, st, hends, hout⟩ := ends_run s obj k curvature w
  obtain ⟨stop', st', hends', hout'⟩ := ends_run { s with logPeriod := period } obj k curvature w
  have hsame : Ends (problem s obj curvature) (initialState s w) k stop' st'
      (run { s with logPeriod := period } obj k curvature w).trail.toCourse :=
    Ends.congr (p := problem { s with logPeriod := period } obj curvature) (fun _ _ => rfl) hends'
  obtain ⟨rfl, rfl, hcourse⟩ := hends.unique hsame
  exact ⟨hout'.trans hout.symm, hcourse.symm⟩

theorem solve_logPeriod (s : Settings α) (obj : Objective α n) (k : ℕ) (curvature : Option α)
    (work : Array α) (period : ℕ) :
    (solve { s with logPeriod := period } obj k curvature work).outcome
        = (solve s obj k curvature work).outcome ∧
      (solve { s with logPeriod := period } obj k curvature work).trail.toCourse
        = (solve s obj k curvature work).trail.toCourse := by
  unfold solve
  by_cases hpos : n = 0 ∨ k = 0
  · rw [if_pos hpos, if_pos hpos]
    exact ⟨rfl, rfl⟩
  · rw [if_neg hpos, if_neg hpos]
    cases curvature.filter fun c => ¬0 < c with
    | some c => exact ⟨rfl, rfl⟩
    | none =>
      by_cases hwork : workLength s n ≤ work.size
      · have hwork' : workLength { s with logPeriod := period } n ≤ work.size := hwork
        dsimp only
        rw [dif_pos hwork, dif_pos hwork']
        exact run_logPeriod s obj k curvature _ period
      · have hwork' : ¬workLength { s with logPeriod := period } n ≤ work.size := hwork
        dsimp only
        rw [dif_neg hwork, dif_neg hwork']
        exact ⟨rfl, rfl⟩

end Solves

/-- **Runs of different lengths.** A solve of `k` iterations is the beginning of each longer one. If
its arguments pass the checks and it fails, it fails in an iteration `i`, with `i + 1` gradients asked
for, and the solves of at most `i` iterations return; if they do not pass, it asks for no gradient.
Neither the outcome nor the matrices at which gradients are asked for depend on the period of the
reports, nor, for an objective that has a value at every matrix, on the listener. -/
theorem solve_lengths (s : Settings α) (obj : Objective α n) (curvature : Option α)
    (work : Array α) :
    (∀ k k', 0 < k → k ≤ k' →
      (solve s obj k curvature work).Begins k (solve s obj k' curvature work) k') ∧
    (∀ k, 0 < k → Admissible s n curvature work →
      ∀ stop, (solve s obj k curvature work).outcome = .error stop →
        ∃ i < k, (solve s obj k curvature work).trail.visited.size = i + 1 ∧
          ∀ j, 0 < j → j ≤ i → ∃ X, (solve s obj j curvature work).outcome = .ok X) ∧
    (∀ k, ¬(0 < k ∧ Admissible s n curvature work) →
      (∃ e, (solve s obj k curvature work).outcome = .error (.error e)) ∧
        (solve s obj k curvature work).trail.visited = #[]) ∧
    ∀ k period,
      ((solve { s with logPeriod := period } obj k curvature work).outcome
          = (solve s obj k curvature work).outcome ∧
        (solve { s with logPeriod := period } obj k curvature work).trail.visited
          = (solve s obj k curvature work).trail.visited) ∧
      (obj.HasValues → ∀ verbosity,
        (solve { s with logPeriod := period } obj k curvature work).heardBy verbosity
          = ((solve s obj k curvature work).outcome,
            (solve s obj k curvature work).trail.visited)) := by
  refine ⟨fun k k' hk hle => ?_, fun k hk hargs stop hstop => ?_, fun k hargs => ?_,
    fun k period => ?_⟩
  · exact solve_begins s obj curvature work hk hle
  · exact hargs.exists_failed_iteration obj hk hstop
  · have hrefused : (∃ e, (solve s obj k curvature work).outcome = .error (.error e)) ∧
        (solve s obj k curvature work).trail.toCourse = {} :=
      solve_refused fun h => hargs ⟨h.2.1, h.1, h.2.2⟩
    exact ⟨hrefused.1, congrArg Course.visited hrefused.2⟩
  · obtain ⟨hout, hcourse⟩ := solve_logPeriod s obj k curvature work period
    have hvisited := congrArg Course.visited hcourse
    refine ⟨⟨hout, hvisited⟩, fun hobj verbosity => ?_⟩
    rw [heardBy_solve _ hobj, hout]
    exact congrArg (Prod.mk _) hvisited

/-! ## A run that returns and one that fails -/

/-- A run with the default settings whose gradients are all the same, and are refused. -/
noncomputable def lowerUnitRun (iterations : ℕ) : Run ℝ 2 :=
  solve Settings.default (Objective.linear lowerUnit.toArray) iterations none
    (Array.replicate (workLength (Settings.default : Settings ℝ) 2) 0)

theorem admissible_replicate (s : Settings ℝ) (hn : 0 < n) :
    Admissible s n none (Array.replicate (workLength s n) 0) := by
  refine ⟨hn, fun c hc => ?_, ?_⟩
  · cases hc
  · rw [Array.size_replicate]

theorem outcome_lowerUnitRun {iterations : ℕ} (hiter : 0 < iterations) :
    (lowerUnitRun iterations).outcome = .error (.error .asymmetricGradient) := by
  refine (admissible_replicate Settings.default Nat.two_pos).solve_of_gradient_error hiter
    fun st => ?_
  have hgrad : (Objective.linear lowerUnit.toArray).gradient 0 st.regions.point
      st.regions.gradient = .ok lowerUnit := lowerUnit.ofArray?_toArray
  have hfloor : (tenToMinus 12 : ℝ) ≤ 1 := (tenToMinus_lt_one (by decide)).le
  have hrefused := symmetrize_of_tooAsymmetric (tenToMinus_pos 8).le
    ((tooAsymmetric_lowerUnit_iff hfloor).2 (tenToMinus_lt_one (by decide)))
  unfold symmetricGradient problem
  dsimp only [Settings.default]
  rw [hgrad]
  dsimp only
  rw [hrefused]

theorem hasValues_diagonalSquares : (Objective.diagonalSquares : Objective α n).HasValues := by
  intro X
  unfold Objective.valueAt Objective.diagonalSquares
  dsimp only
  rw [X.ofFront?_toArray]
  exact ⟨_, rfl⟩

/-- The run of two iterations on the squares of the diagonal returns and is the beginning of the run
of five, whoever listens; the runs that are refused fail alike. -/
theorem squaresRun_solve_lengths :
    (∃ X, (squaresRun 2).outcome = .ok X ∧ (squaresRun 2).trail.visited.size = 2 ∧
      (squaresRun 5).trail.visited[2]? = some X) ∧
    (∀ period verbosity,
      (solve { Settings.default with logPeriod := period } Objective.diagonalSquares 2 none
          (Array.replicate (workLength (Settings.default : Settings ℝ) 2) 0)).heardBy verbosity
        = ((squaresRun 2).outcome, (squaresRun 2).trail.visited)) ∧
    ((lowerUnitRun 1).outcome = .error (.error .asymmetricGradient) ∧
      (lowerUnitRun 5).outcome = .error (.error .asymmetricGradient) ∧
      (lowerUnitRun 1).trail.visited.size = 1 ∧
      (lowerUnitRun 5).trail.visited = (lowerUnitRun 1).trail.visited) := by
  let work : Array ℝ := Array.replicate (workLength (Settings.default : Settings ℝ) 2) 0
  obtain ⟨hbegins, -, -, hreports⟩ :=
    solve_lengths Settings.default (Objective.diagonalSquares : Objective ℝ 2) none work
  obtain ⟨hrefused, hfails, -, -⟩ :=
    solve_lengths Settings.default (Objective.linear lowerUnit.toArray) none work
  refine ⟨?returns, fun period verbosity => ?listens, ?fails⟩
  case returns =>
    obtain ⟨X, hX⟩ := exists_squaresRun_eq_ok Nat.two_pos
    obtain ⟨hsize, hnext⟩ := (hbegins 2 5 Nat.two_pos (by decide)).solved X hX
    exact ⟨X, hX, hsize, hnext (by decide)⟩
  case listens => exact (hreports 2 period).2 hasValues_diagonalSquares verbosity
  case fails =>
    have hfailed := outcome_lowerUnitRun Nat.one_pos
    obtain ⟨hlonger, hvisited⟩ := (hrefused 1 5 Nat.one_pos (by decide)).failed _ hfailed
    obtain ⟨i, hi, hsize, -⟩ := hfails 1 Nat.one_pos
      (admissible_replicate Settings.default Nat.two_pos) _ hfailed
    obtain rfl : i = 0 := Nat.lt_one_iff.1 hi
    exact ⟨hfailed, hlonger, hsize, hvisited⟩

end Spectrahedron.FrankWolfe
