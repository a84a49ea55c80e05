import Spectrahedron.Proofs.Independence
import Spectrahedron.Proofs.Stages
import Spectrahedron.Proofs.Surrogate

/-!
# The search is a loop over trials of a problem just built

A trial depends on its trace scale and the settings, but not on the work slice that the trials
before it have left. So a search is determined by the results of single trials, each on a problem of
its own: it goes from bracket to bracket as long as they are rejected, and ends with the first that
is not.

In exact arithmetic every scale that it comes to lies between the ends of its bracket and is
positive, so it never leaves the range of the scalars.

**Theorem (`Feasibility.solve_eq_iff_searchEnds`).** The result of a search is the end of this loop,
whatever the problem has been used for before.
-/

namespace Spectrahedron

open Scalar

/-! ## Rejections -/

section Rejections

variable {α : Type} [Scalar α] {χ : Type}

/-- The bracket after a number of trials, from `b₀` on, all of which were rejected. -/
inductive Rejected (trial : α → Except Stop (Trial α χ)) (eps : α) (b₀ : Bracket α) :
    ℕ → Bracket α → Prop
  | start : Rejected trial eps b₀ 0 b₀
  | step {k : ℕ} {b : Bracket α} {t : Trial α χ} :
      Rejected trial eps b₀ k b → trial b.scale = .ok t → ¬-eps < t.value →
      Rejected trial eps b₀ (k + 1) (b.reject t.sensitivity)

/-- The results of a search from `b₀` on by at most `maxIter` trials: the first trial that is not
rejected is accepted or fails, or there is none. -/
inductive SearchEnds (trial : α → Except Stop (Trial α χ)) (eps : α) (b₀ : Bracket α)
    (maxIter : ℕ) : Except Stop (Solution α χ) → Prop
  | accepted {k : ℕ} {b : Bracket α} {t : Trial α χ} :
      Rejected trial eps b₀ k b → k < maxIter → trial b.scale = .ok t → -eps < t.value →
      SearchEnds trial eps b₀ maxIter (.ok ⟨t.x, t.value, b.scale, k + 1⟩)
  | failed {k : ℕ} {b : Bracket α} {stop : Stop} :
      Rejected trial eps b₀ k b → k < maxIter → trial b.scale = .error stop →
      SearchEnds trial eps b₀ maxIter (.error stop)
  | exhausted {b : Bracket α} :
      Rejected trial eps b₀ maxIter b →
      SearchEnds trial eps b₀ maxIter (.error (.error .searchConvergence))

variable {σ : Type} {trial : α → Except Stop (Trial α χ)} {eps : α} {b₀ b : Bracket α} {k : ℕ}
  {run : σ → α → Step Stop σ (Trial α χ) α} {state : σ} {events : Array (Event α)}
  (hrun : ∀ state scale, (run state scale).outcome = trial scale)

include hrun

/-- The brackets of the stages are those that rejections lead to. -/
theorem Passes.rejected {s : Stage σ α} (h : Passes run eps ⟨[], b₀, state, events⟩ s) :
    Rejected trial eps b₀ s.rejected.length s.bracket := by
  induction h with
  | start => exact .start
  | step _ ht hreject ih => exact ih.step ((hrun _ _).symm.trans ht) hreject

theorem Rejected.exists_passes (h : Rejected trial eps b₀ k b) (state : σ)
    (events : Array (Event α)) :
    ∃ s, Passes run eps ⟨[], b₀, state, events⟩ s ∧ s.rejected.length = k ∧ s.bracket = b := by
  induction h with
  | start => exact ⟨_, .start, rfl, rfl⟩
  | step _ ht hreject ih =>
    obtain ⟨s, hs, rfl, rfl⟩ := ih
    exact ⟨_, hs.step ((hrun _ _).trans ht) hreject, rfl, rfl⟩

end Rejections

/-! ## Ordered brackets -/

namespace Bracket

/-- The scale to be tried lies between the ends, and the lower end is not negative. -/
structure Ordered (b : Bracket ℝ) : Prop where
  lo_nonneg : 0 ≤ b.lo
  lo_lt : b.lo < b.scale
  lt_hi : ∀ h ∈ b.hi, b.scale < h

theorem ordered_start {scale : ℝ} (hscale : 0 < scale) : (start scale).Ordered :=
  ⟨le_rfl, hscale, fun _ h => by cases h⟩

theorem Ordered.scale_pos {b : Bracket ℝ} (hb : b.Ordered) : 0 < b.scale :=
  hb.lo_nonneg.trans_lt hb.lo_lt

theorem Ordered.admissible {b : Bracket ℝ} (hb : b.Ordered) : Bracket.admissible b.scale :=
  ⟨hb.scale_pos, rfl⟩

/-- A rejection leads to a scale strictly between the new ends. -/
theorem Ordered.reject {b : Bracket ℝ} (hb : b.Ordered) (sensitivity : ℝ) :
    (b.reject sensitivity).Ordered := by
  have hscale := hb.scale_pos
  unfold Bracket.reject
  split
  · cases hhi : b.hi with
    | none =>
      refine ⟨hscale.le, ?_, fun _ h => by cases h⟩
      dsimp only
      rw [two_eq]
      linarith
    | some h =>
      have hlt : b.scale < h := hb.lt_hi h hhi
      refine ⟨hscale.le, ?_, ?_⟩
      · dsimp only
        rw [two_eq]
        linarith
      · rintro _ ⟨⟩
        dsimp only
        rw [two_eq]
        linarith
  · have hlo := hb.lo_lt
    have hmiddle : b.lo < (if 0 < b.lo then (b.lo + b.scale) / two else b.scale / two) ∧
        (if 0 < b.lo then (b.lo + b.scale) / two else b.scale / two) < b.scale := by
      rw [two_eq]
      split
      · constructor <;> linarith
      · constructor <;> linarith
    refine ⟨hb.lo_nonneg, hmiddle.1, ?_⟩
    rintro _ ⟨⟩
    exact hmiddle.2

end Bracket

/-! ## The loop -/

section Loop

variable {σ χ : Type} {trial : ℝ → Except Stop (Trial ℝ χ)} {eps : ℝ} {b₀ b : Bracket ℝ} {k : ℕ}
  (hpos : ∀ scale t, trial scale = .ok t → 0 < scale)

include hpos

theorem Rejected.ordered (hb₀ : 0 < b₀.scale → b₀.Ordered) (h : Rejected trial eps b₀ k b)
    (hscale : 0 < b.scale) : b.Ordered := by
  induction h with
  | start => exact hb₀ hscale
  | step _ ht _ ih => exact (ih (hpos _ _ ht)).reject _

/-- A rejection never leads to a scale that cannot be tried. -/
theorem Rejected.admissible_reject (hb₀ : 0 < b₀.scale → b₀.Ordered)
    (h : Rejected trial eps b₀ k b) {t : Trial ℝ χ} (ht : trial b.scale = .ok t) :
    Bracket.admissible (b.reject t.sensitivity).scale :=
  ((h.ordered hpos hb₀ (hpos _ _ ht)).reject _).admissible

variable {run : σ → ℝ → Step Stop σ (Trial ℝ χ) ℝ}
  (hrun : ∀ state scale, (run state scale).outcome = trial scale) (hb₀ : 0 < b₀.scale → b₀.Ordered)

include hrun hb₀

/-- The result of a search is the end of the loop. -/
theorem search_eq_iff_searchEnds (maxIter : ℕ) (state : σ) (events : Array (Event ℝ))
    (result : Except Stop (Solution ℝ χ)) :
    (search run eps maxIter maxIter 0 b₀ state events).outcome = result ↔
      SearchEnds trial eps b₀ maxIter result := by
  have hstart : Passes run eps ⟨[], b₀, state, events⟩ ⟨[], b₀, state, events⟩ := .start
  have hscale : ∀ {s t}, Passes run eps ⟨[], b₀, state, events⟩ s →
      (s.trial run).outcome = .ok t → Bracket.admissible (s.bracket.reject t.sensitivity).scale :=
    fun h ht => (h.rejected hrun).admissible_reject hpos hb₀ ((hrun _ _).symm.trans ht)
  have hsearch : ∀ {s}, Passes run eps ⟨[], b₀, state, events⟩ s → s.rejected.length ≤ maxIter →
      search run eps maxIter maxIter 0 b₀ state events = s.search run eps maxIter :=
    fun h hle => h.search_eq hscale hle
  constructor
  · rintro rfl
    rw [hsearch hstart (Nat.zero_le maxIter)]
    have hends := hstart.ends_search hscale (Nat.zero_le maxIter)
    generalize Stage.search run _ eps maxIter = step at hends ⊢
    cases hends with
    | accepted h hlt ht haccept =>
      exact .accepted (h.rejected hrun) hlt ((hrun _ _).symm.trans ht) haccept
    | failed h hlt ht => exact .failed (h.rejected hrun) hlt ((hrun _ _).symm.trans ht)
    | exhausted h hlength => exact .exhausted (hlength ▸ h.rejected hrun)
  · intro hends
    cases hends with
    | accepted hb hk ht haccept =>
      obtain ⟨s, h, rfl, rfl⟩ := hb.exists_passes hrun state events
      rw [hsearch h hk.le, Stage.search_of_accept hk ((hrun _ _).trans ht) haccept]
    | failed hb hk ht =>
      obtain ⟨s, h, rfl, rfl⟩ := hb.exists_passes hrun state events
      rw [hsearch h hk.le, Stage.search_of_error hk ((hrun _ _).trans ht)]
    | exhausted hb =>
      obtain ⟨s, h, hlength, rfl⟩ := hb.exists_passes hrun state events
      rw [hsearch h hlength.le, Stage.search_of_length_eq hlength]

end Loop

/-! ## Trials -/

theorem Surrogate.overwrites_objective (f : Surrogate ℝ) : f.objective.Overwrites :=
  fun _ _ x old old' => congrArg Except.ok (f.gradient_congr x old old')

namespace Feasibility

/-- A problem that has just been built from a system. -/
def fresh {α : Type} [Scalar α] (system : ConstraintSystem α) : Feasibility α where
  system := system

variable {system : ConstraintSystem ℝ} {par : SearchSettings ℝ}

theorem runAt_outcome_congr (work work' : Array ℝ) (scale : ℝ) :
    (runAt system par work scale).outcome = (runAt system par work' scale).outcome := by
  refine (FrankWolfe.solve_congr (Surrogate.overwrites_objective _) _ _ (Or.inl ?_)).1
  rw [size_resize_work, size_resize_work]

/-- A trial does not depend on what the work slice holds, however long it is. -/
theorem solveScale_outcome_congr (work work' : Array ℝ) (scale : ℝ) :
    (solveScale system par work scale).outcome = (solveScale system par work' scale).outcome := by
  by_cases hscale : Bracket.admissible scale
  · have hcongr : (runAt system par work scale).outcome = (runAt system par work' scale).outcome :=
      runAt_outcome_congr work work' scale
    cases hrun : (runAt system par work scale).outcome with
    | error stop =>
      rw [solveScale_of_run_error hscale hrun, solveScale_of_run_error hscale (hcongr ▸ hrun)]
    | ok x => rw [solveScale_of_run_ok hscale hrun, solveScale_of_run_ok hscale (hcongr ▸ hrun)]
  · unfold solveScale
    rw [if_neg hscale, if_neg hscale]

/-- A use of a problem: a solve at one trace scale, or a search. -/
inductive Call (α : Type) where
  | solveAt (par : SearchSettings α) (scale : α)
  | solve (par : SearchSettings α)

/-- What a use of a problem leaves in its work slice. -/
def Call.run {α : Type} [Scalar α] (system : ConstraintSystem α) (work : Array α) :
    Call α → Array α
  | solveAt par scale => (Feasibility.solveAt ⟨system, work⟩ par scale).state
  | solve par => (Feasibility.solve ⟨system, work⟩ par).state

/-- A problem after a number of uses. -/
def after {α : Type} [Scalar α] (p : Feasibility α) (calls : List (Call α)) : Feasibility α :=
  { p with work := calls.foldl (Call.run p.system) p.work }

/-- **The search is a loop over trials of a problem just built.** A search ends with the first trial
that is not rejected: it returns what has been found there, with the scale and the number of trials,
or fails as the trial does; and if all that are allowed are rejected, it does not converge. The
trials are those of a problem with an empty work slice, and so neither a search nor a solve at one
scale depends on the uses of the problem before. -/
theorem solve_eq_iff_searchEnds (p : Feasibility ℝ) (par : SearchSettings ℝ) :
    (∀ result, (p.solve par).outcome = result ↔
      SearchEnds (fun scale => ((fresh p.system).solveAt par scale).outcome) p.system.eps
        (Bracket.start par.traceInit) par.maxIter result) ∧
    (∀ scale, (p.solveAt par scale).outcome = ((fresh p.system).solveAt par scale).outcome) ∧
    ∀ calls : List (Call ℝ), ((p.after calls).solve par).outcome = (p.solve par).outcome ∧
      ∀ scale, ((p.after calls).solveAt par scale).outcome = (p.solveAt par scale).outcome := by
  have hpos : ∀ scale t, ((fresh p.system).solveAt par scale).outcome = .ok t → 0 < scale := by
    intro scale t ht
    exact (exists_of_solveScale_ok ht).1.1
  have hrun : ∀ (work : Array ℝ) scale, (solveScale p.system par work scale).outcome
      = ((fresh p.system).solveAt par scale).outcome :=
    fun work scale => solveScale_outcome_congr work #[] scale
  have hloop : ∀ work result, (Feasibility.solve ⟨p.system, work⟩ par).outcome = result ↔
      SearchEnds (fun scale => ((fresh p.system).solveAt par scale).outcome) p.system.eps
        (Bracket.start par.traceInit) par.maxIter result :=
    fun work result => search_eq_iff_searchEnds hpos hrun Bracket.ordered_start _ _ _ _
  refine ⟨hloop p.work, fun scale => hrun p.work scale, fun calls => ⟨?_, fun scale => ?_⟩⟩
  · exact (hloop _ _).2 ((hloop p.work _).1 rfl)
  · exact (hrun _ scale).trans (hrun p.work scale).symm

end Feasibility

end Spectrahedron
