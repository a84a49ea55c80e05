import Mathlib.Data.Nat.Notation
import Spectrahedron.FrankWolfe
import Spectrahedron.Text.Journal

/-!
# Listeners

A run collects its reports, and a listener has those written down that are severe enough for him.
Two kinds of reports have a part that is computed for the occasion and may be missing: the value of
the objective in a report of progress, and the Ritz value in that of a restart. A listener who hears
such a report breaks the run off.

**Theorem (`FrankWolfe.heardBy_solve`).** If the objective has a value at every matrix, nothing is
missing from any report, and a solve is the same for all listeners.
-/

namespace Spectrahedron

variable {α : Type}

/-! ## Missing parts -/

namespace Event

/-- The fault of the part of a report that is missing, if one is. -/
def missing? : Event α → Option Fault
  | restart _ _ (.error f) _ => some f
  | progress _ (.error f) _ _ => some f
  | _ => none

/-- Reports without a missing part are those that have a text. -/
theorem missing?_eq_none_iff (e : Event Float) : e.missing? = none ↔ ∃ r, e.record = .ok r := by
  have hmissing : ∀ {f : Fault}, (some f = none ↔ ∃ r : String, Except.error f = .ok r) :=
    ⟨nofun, nofun⟩
  cases e with
  | restart number basis ritz residual =>
    cases ritz with
    | error f => exact hmissing
    | ok value => exact ⟨fun _ => ⟨_, rfl⟩, fun _ => rfl⟩
  | progress iteration value eigenvalue stepSize =>
    cases value with
    | error f => exact hmissing
    | ok value => exact ⟨fun _ => ⟨_, rfl⟩, fun _ => rfl⟩
  | _ => exact ⟨fun _ => ⟨_, rfl⟩, fun _ => rfl⟩

/-- The first report that a listener of a verbosity hears and that has a missing part. -/
def firstMissing? (verbosity : Level) (events : List (Event α)) : Option (Event α × Fault) :=
  events.findSome? fun e => if e.heard verbosity then e.missing?.map (e, ·) else none

end Event

/-- The journal of a listener ends with the first report he hears that has a missing part. -/
theorem Journal.unwritten_ofEvents (verbosity : Level) (events : Array (Event Float)) :
    (ofEvents (some verbosity) events).unwritten
      = (Event.firstMissing? verbosity events.toList).map Prod.fst := by
  have hwrite : ∀ (es : List (Event Float)) (records : Array String),
      (write (es.filter (Event.heard verbosity)) records).unwritten
        = (Event.firstMissing? verbosity es).map Prod.fst := by
    intro es
    induction es with
    | nil => exact fun _ => rfl
    | cons e es ih =>
      intro records
      unfold Event.firstMissing?
      rw [List.findSome?_cons, List.filter_cons]
      cases hheard : e.heard verbosity with
      | false => exact ih records
      | true =>
        rw [if_pos rfl, if_pos rfl, write]
        cases hmissing : e.missing? with
        | none =>
          obtain ⟨r, hr⟩ := e.missing?_eq_none_iff.1 hmissing
          rw [hr]
          exact ih _
        | some f =>
          cases hr : e.record with
          | error => rfl
          | ok r => cases hmissing.symm.trans (e.missing?_eq_none_iff.2 ⟨r, hr⟩)
  exact hwrite events.toList #[]

/-! ## Complete reports -/

/-- Reports without missing parts. -/
def Complete (events : Array (Event α)) : Prop := ∀ e ∈ events, e.missing? = none

theorem complete_empty : Complete (#[] : Array (Event α)) :=
  fun e he => absurd he (Array.not_mem_empty e)

theorem Complete.push {events : Array (Event α)} (h : Complete events) {e : Event α}
    (he : e.missing? = none) : Complete (events.push e) := by
  intro e' he'
  rcases Array.mem_push.1 he' with he' | rfl
  · exact h e' he'
  · exact he

theorem Complete.append {events events' : Array (Event α)} (h : Complete events)
    (h' : Complete events') : Complete (events ++ events') := by
  intro e he
  rcases Array.mem_append.1 he with he | he
  · exact h e he
  · exact h' e he

theorem complete_singleton {e : Event α} (he : e.missing? = none) : Complete #[e] :=
  complete_empty.push he

/-- No listener misses anything in complete reports. -/
theorem Complete.firstMissing?_eq_none {events : Array (Event α)} (h : Complete events)
    (verbosity : Level) : Event.firstMissing? verbosity events.toList = none := by
  refine List.findSome?_eq_none_iff.2 fun e he => ?_
  rw [h e (Array.mem_toList_iff.1 he)]
  split <;> rfl

variable [Scalar α] {n m : ℕ}

omit [Scalar α] in
theorem EigenDecomposition.complete_events (e : EigenDecomposition α n) (maxSweeps : ℕ) :
    Complete (e.events maxSweeps) := by
  unfold events
  split
  · exact complete_empty
  · exact complete_singleton rfl

theorem Dense.complete_topEig (d : Dense α) (G : Mat α n n) (vec : Vector α n)
    (w : Dense.Regions α n) : Complete (d.topEig G vec w).events := by
  unfold topEig
  dsimp only
  split <;> exact EigenDecomposition.complete_events _ _

namespace Lanczos

variable (l : Lanczos α) (G : Mat α n n)

theorem complete_restart (normG : α) (hm : 0 < m) (hmn : m ≤ n) (v : Vector α n)
    (K : Krylov α n m) : Complete (l.restart G normG hm hmn v K).events := by
  unfold restart
  dsimp only
  split <;> exact EigenDecomposition.complete_events _ _

theorem complete_restarts (normG tol : α) (hm : 0 < m) (hmn : m ≤ n) (left number : ℕ)
    (v : Vector α n) (K : Krylov α n m) {events : Array (Event α)} (h : Complete events) :
    Complete (l.restarts G normG tol hm hmn left number v K events).events := by
  induction left generalizing number v K events with
  | zero => exact h.push rfl
  | succ left ih =>
    have hone := h.append (l.complete_restart G normG hm hmn v K)
    unfold restarts
    dsimp only
    split
    · exact hone
    · split
      · exact hone.push rfl
      · exact ih _ _ _ (hone.push rfl)

/-- A matrix with rows has no empty basis to report. -/
theorem complete_topEig (hn : 0 < n) (tol : α) (vec : Vector α n)
    (K : Krylov α n (basisDim l.krylovDim n)) : Complete (l.topEig G tol vec K).events := by
  unfold topEig topEigZero topEigNonzero
  dsimp only
  split
  · split <;> exact complete_empty
  · exact l.complete_restarts G _ _ _ _ _ _ _ _ complete_empty

end Lanczos

theorem Extractor.complete_topEig (e : Extractor α) (hn : 0 < n) (G : Mat α n n) (tol : α)
    (vec : Vector α n) (work : Array α) : Complete (e.topEig G tol vec work).events := by
  unfold topEig
  cases e with
  | dense d =>
    dsimp only
    split
    · exact d.complete_topEig G vec _
    · exact complete_singleton rfl
  | lanczos l =>
    dsimp only
    split
    · exact l.complete_topEig G hn tol vec _
    · exact complete_singleton rfl

/-! ## Runs -/

/-- An objective that has a value at every matrix. -/
def Objective.HasValues (obj : Objective α n) : Prop := ∀ X, ∃ a, obj.valueAt X = .ok a

namespace FrankWolfe

/-- What a listener of a verbosity gets of a run: the outcome, and the matrices at which the gradient
was asked for. The run breaks off at the first report he hears that has a missing part. -/
def Run.heardBy (r : Run α n) (verbosity : Option Level) :
    Except Stop (Mat α n n) × Array (Mat α n n) :=
  match verbosity.bind fun v => Event.firstMissing? v r.trail.events.toList with
  | some (e, f) => (.error (.fault f), r.trail.visitedBy e)
  | none => (r.outcome, r.trail.visited)

omit [Scalar α] in
theorem Run.heardBy_of_complete {r : Run α n} (h : Complete r.trail.events)
    (verbosity : Option Level) : r.heardBy verbosity = (r.outcome, r.trail.visited) := by
  unfold heardBy
  cases verbosity with
  | none => rfl
  | some v => rw [Option.bind_some, h.firstMissing?_eq_none]

theorem complete_advance (p : Problem α n) (hn : 0 < n) (k : ℕ) (st : State α n) :
    Complete (advance p k st).events := by
  unfold advance
  split
  · exact complete_empty
  · split
    · rename_i e event hsym
      unfold symmetrize at hsym
      split at hsym
      · dsimp only at hsym
        split at hsym
        · cases hsym
          exact complete_singleton rfl
        · cases hsym
      · cases hsym
        exact complete_singleton rfl
    · unfold ascend
      dsimp only
      split <;> exact p.extractor.complete_topEig hn _ _ _ _

omit [Scalar α] in
theorem complete_noPeriodEvent (logPeriod k : ℕ) :
    Complete (noPeriodEvent logPeriod k : Array (Event α)) := by
  unfold noPeriodEvent
  split
  · exact complete_singleton rfl
  · exact complete_empty

omit [Scalar α] in
theorem missing?_report {p : Problem α n} (hp : p.objective.HasValues) (total k : ℕ)
    (f : Figures α) (x : Mat α n n) : (report p total k f x).missing? = none := by
  obtain ⟨a, ha⟩ := hp x
  unfold report
  dsimp only
  split
  · rw [ha]
    rfl
  · rfl

theorem complete_iterate {p : Problem α n} (hp : p.objective.HasValues) (hn : 0 < n)
    (total left k : ℕ) (st : State α n) {t : Trail α n} (ht : Complete t.events) :
    Complete (iterate p total left k st t).2.2.events := by
  induction left generalizing k st t with
  | zero => exact ht
  | succ left ih =>
    have hadvance := (ht.append (complete_noPeriodEvent p.settings.logPeriod k)).append
      (complete_advance p hn k st)
    unfold iterate
    dsimp only
    split
    · exact hadvance
    · exact ih _ _ (hadvance.push (missing?_report hp _ _ _ _))

/-- Nothing is missing from the reports of a solve. -/
theorem complete_solve (s : Settings α) {obj : Objective α n} (hobj : obj.HasValues)
    (iterations : ℕ) (curvature : Option α) (work : Array α) :
    Complete (solve s obj iterations curvature work).trail.events := by
  unfold solve
  split
  · exact complete_singleton rfl
  · rename_i hpos
    have hn : 0 < n := by omega
    split
    · exact complete_singleton rfl
    · split
      · rename_i hwork
        have hstart : Complete #[.settings s, .initializing,
            .extractorChosen (problem s obj curvature).extractor.name, (.iterating : Event α)] :=
          (((complete_singleton rfl).push rfl).push rfl).push rfl
        have hiter := complete_iterate (p := problem s obj curvature) hobj hn iterations iterations 0
          (initialState s (Regions.ofSlice n work (Nat.le_trans (Nat.le_add_right _ _) hwork)))
          (t := ⟨{}, _⟩) hstart
        unfold run
        dsimp only
        split
        · rename_i hend
          rwa [hend] at hiter
        · rename_i hend
          rw [hend] at hiter
          exact hiter.append ((complete_singleton rfl).push rfl)
      · exact complete_singleton rfl

/-- **All listeners get the same.** -/
theorem heardBy_solve (s : Settings α) {obj : Objective α n} (hobj : obj.HasValues)
    (iterations : ℕ) (curvature : Option α) (work : Array α) (verbosity : Option Level) :
    (solve s obj iterations curvature work).heardBy verbosity
      = ((solve s obj iterations curvature work).outcome,
        (solve s obj iterations curvature work).trail.visited) :=
  Run.heardBy_of_complete (complete_solve s hobj iterations curvature work) verbosity

end FrankWolfe

end Spectrahedron
