import Spectrahedron.Proofs.Diagonal
import Spectrahedron.Proofs.Extraction

/-!
# Iterates stay in the spectrahedron

The starting point is `v vᵀ / vᵀ v`. An iteration that succeeds goes from a point of the
spectrahedron towards `v vᵀ` for a unit vector `v`, by a step size between zero and one.

**Theorem (`isSymm_posSemidef_trace_of_solve`).** Every matrix at which a solve asks for the
gradient, and every matrix that it returns, is symmetric and positive semidefinite and has trace
one.
-/

namespace Spectrahedron.FrankWolfe

variable {n : ℕ} {s : Settings ℝ}

/-! ## The start and one iteration -/

theorem point_initialState (w : Regions ℝ n) :
    (initialState s w).regions.point =
      let v := (startVector s.epsZero w.direction (.ofSeed s.seed)).1
      startPoint v.1 v.2 w.point := rfl

theorem posSemidef_initialState (w : Regions ℝ n) :
    (initialState s w).regions.point.toMatrix.PosSemidef := by
  obtain ⟨hsq, -⟩ := startVector_spec s.epsZero w.direction (.ofSeed s.seed)
  rw [point_initialState]
  refine posSemidef_startPoint ?_ w.point
  rw [hsq]
  exact dotProduct_self_nonneg _

theorem initialState_mem (hs : 0 ≤ s.epsZero) (hn : 0 < n) (w : Regions ℝ n) :
    (initialState s w).regions.point ∈ spectrahedron n := by
  obtain ⟨hsq, hpos⟩ := startVector_spec s.epsZero w.direction (.ofSeed s.seed)
  rw [point_initialState]
  exact startPoint_mem hsq (hpos hs hn) w.point

variable {p : Problem ℝ n} {k : ℕ} {st : State ℝ n} {f : Figures ℝ}

theorem posSemidef_advance (hpoint : st.regions.point.toMatrix.PosSemidef)
    (h : (advance p k st).outcome = .ok f) :
    (advance p k st).state.regions.point.toMatrix.PosSemidef := by
  obtain ⟨G, value, -, -, hregions⟩ := exists_of_advance_ok h
  rw [hregions]
  exact posSemidef_move hpoint (stepSize_nonneg k) (stepSize_le_one k) _

theorem normalized_extraction (hp : 0 ≤ p.extractor.epsZero) (hn : 0 < n) {G : Mat ℝ n n} {value : ℝ}
    (h : (extraction p k st G).outcome = .ok value) : Normalized (extraction p k st G).vec :=
  Extractor.normalized_topEig hp hn _ _ _ _ h

theorem advance_mem (hp : 0 ≤ p.extractor.epsZero) (hn : 0 < n)
    (hpoint : st.regions.point ∈ spectrahedron n) (h : (advance p k st).outcome = .ok f) :
    (advance p k st).state.regions.point ∈ spectrahedron n := by
  obtain ⟨G, value, -, hext, hregions⟩ := exists_of_advance_ok h
  rw [hregions]
  exact move_mem hpoint (stepSize_nonneg k) (stepSize_le_one k) (normalized_extraction hp hn hext)

/-- States that iterations reach from a point of the spectrahedron have another one. -/
theorem Reaches.point_mem {st₀ : State ℝ n} {c : Course ℝ n} (hp : 0 ≤ p.extractor.epsZero)
    (hn : 0 < n) (hstart : st₀.regions.point ∈ spectrahedron n) (h : Reaches p st₀ k st c) :
    st.regions.point ∈ spectrahedron n :=
  (h.point_invariant hstart fun _ _ _ hpoint hok => advance_mem hp hn hpoint hok).1

/-! ## Solves -/

variable {obj : Objective ℝ n} {iterations : ℕ} {curvature : Option ℝ} {work : Array ℝ}

theorem zero_le_epsZero_problem (hs : 0 ≤ s.epsZero) (obj : Objective ℝ n)
    (curvature : Option ℝ) : 0 ≤ (problem s obj curvature).extractor.epsZero := by
  unfold problem
  rw [Extractor.epsZero_select]
  exact hs

/-- The solution is positive semidefinite whatever the tolerances are. -/
theorem posSemidef_of_solve_ok {X : Mat ℝ n n}
    (h : (solve s obj iterations curvature work).outcome = .ok X) : X.toMatrix.PosSemidef := by
  obtain ⟨hwork, st, -, hreach, rfl⟩ := reaches_of_solve_ok h
  refine (hreach.point_invariant (P := fun X => X.toMatrix.PosSemidef) ?_ ?_).1
  · exact posSemidef_initialState _
  · intro k st f hpoint hok
    exact posSemidef_advance hpoint hok

theorem solve_mem (hs : 0 ≤ s.epsZero) (obj : Objective ℝ n) (iterations : ℕ)
    (curvature : Option ℝ) (work : Array ℝ) :
    (∀ X ∈ (solve s obj iterations curvature work).trail.visited, X ∈ spectrahedron n) ∧
      ∀ X, (solve s obj iterations curvature work).outcome = .ok X → X ∈ spectrahedron n := by
  refine solve_point_invariant ?_ ?_
  · intro hn w
    exact initialState_mem hs hn w
  · intro hn k st f hpoint hok
    exact advance_mem (zero_le_epsZero_problem hs obj curvature) hn hpoint hok

/-- **Every iterate is in the spectrahedron**, in runs that fail as in those that return, whatever
the objective, the extractor, its tolerances and the contents of the work slice are. -/
theorem isSymm_posSemidef_trace_of_solve (hs : 0 ≤ s.epsZero) (obj : Objective ℝ n) (iterations : ℕ)
    (curvature : Option ℝ) (work : Array ℝ) (X : Mat ℝ n n)
    (hX : X ∈ (solve s obj iterations curvature work).trail.visited ∨
      (solve s obj iterations curvature work).outcome = .ok X) :
    X.toMatrix.IsSymm ∧ X.toMatrix.PosSemidef ∧ X.trace = 1 := by
  obtain ⟨hvisited, hsolution⟩ := solve_mem hs obj iterations curvature work
  have hmem : X ∈ spectrahedron n := by
    rcases hX with hX | hX
    · exact hvisited X hX
    · exact hsolution X hX
  exact ⟨isSymm_of_mem hmem, hmem.1, hmem.2⟩

/-- A run of three iterations in dimension two, with its solution and the three matrices at which it
asked for the gradient. -/
theorem squaresRun_isSymm_posSemidef_trace :
    0 ≤ (Settings.default : Settings ℝ).epsZero ∧ (squaresRun 3).trail.visited.size = 3 ∧
      (∀ X ∈ (squaresRun 3).trail.visited,
        X.toMatrix.IsSymm ∧ X.toMatrix.PosSemidef ∧ X.trace = 1) ∧
      ∃ X, (squaresRun 3).outcome = .ok X ∧
        X.toMatrix.IsSymm ∧ X.toMatrix.PosSemidef ∧ X.trace = 1 := by
  have heps : 0 ≤ (Settings.default : Settings ℝ).epsZero := (tenToMinus_pos 12).le
  obtain ⟨X, hX⟩ := exists_squaresRun_eq_ok (show 0 < 3 by decide)
  obtain ⟨hwork, st, -, hreach, -⟩ := reaches_of_solve_ok hX
  refine ⟨heps, hreach.size.1, ?_, X, hX, ?_⟩
  · intro X hX
    exact isSymm_posSemidef_trace_of_solve heps _ _ _ _ X (Or.inl hX)
  · exact isSymm_posSemidef_trace_of_solve heps _ _ _ _ X (Or.inr hX)

end Spectrahedron.FrankWolfe
