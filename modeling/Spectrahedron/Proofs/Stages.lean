import Mathlib.Data.Nat.Notation
import Spectrahedron.Feasibility.Search

/-!
# Stages of a search

A search goes from trial to trial. Before each of them it has a bracket, the trials that it has
rejected, the state that they have left and the events. The relation `Passes` holds of these stages,
for any way of making trials, which may answer as it likes from one trial to the next; a fact about
all of them is proved by induction on it, with one case for the start and one for a rejection.

**Theorem (`ends_search`).** As long as every scale can be tried, a search ends at a stage that it
passes: its trial is accepted or fails, or no trial is left.
-/

namespace Spectrahedron

open Scalar

variable {α : Type} [Scalar α] {σ χ : Type}

/-- A trial that has been rejected. -/
structure Rejection (α : Type) where
  scale : α
  sensitivity : α

/-- A search before a trial: the trials that have been rejected, the last one first, the bracket,
the state and the events. -/
structure Stage (σ α : Type) where
  rejected : List (Rejection α)
  bracket : Bracket α
  state : σ
  events : Array (Event α)

namespace Stage

/-- The stage before the first trial. -/
def start (scale : α) (state : σ) (events : Array (Event α)) : Stage σ α :=
  ⟨[], Bracket.start scale, state, events⟩

variable (run : σ → α → Step Stop σ (Trial α χ) α) (s : Stage σ α)

/-- The trial of a stage. -/
def trial : Step Stop σ (Trial α χ) α := run s.state s.bracket.scale

/-- The events with the report of the trial. -/
def reported (t : Trial α χ) : Array (Event α) :=
  (s.events ++ (s.trial run).events).push
    (.trial s.rejected.length s.bracket.scale t.value t.sensitivity)

/-- The stage after the trial has been rejected. -/
def reject (t : Trial α χ) : Stage σ α where
  rejected := ⟨s.bracket.scale, t.sensitivity⟩ :: s.rejected
  bracket := s.bracket.reject t.sensitivity
  state := (s.trial run).state
  events := s.reported run t

/-- The search that goes on from a stage. -/
def search (eps : α) (maxIter : ℕ) : Step Stop σ (Solution α χ) α :=
  Spectrahedron.search run eps maxIter (maxIter - s.rejected.length) s.rejected.length s.bracket
    s.state s.events

end Stage

/-- The stages that a search passes from `s₀` on. -/
inductive Passes (run : σ → α → Step Stop σ (Trial α χ) α) (eps : α) (s₀ : Stage σ α) :
    Stage σ α → Prop
  | start : Passes run eps s₀ s₀
  | step {s : Stage σ α} {t : Trial α χ} :
      Passes run eps s₀ s → (s.trial run).outcome = .ok t → ¬-eps < t.value →
      Passes run eps s₀ (s.reject run t)

/-- The ends of a search by at most `maxIter` trials, at a stage that it passes: the trial is
accepted, it fails, or there is none left. -/
inductive StageEnds (run : σ → α → Step Stop σ (Trial α χ) α) (eps : α) (s₀ : Stage σ α)
    (maxIter : ℕ) : Step Stop σ (Solution α χ) α → Prop
  | accepted {s : Stage σ α} {t : Trial α χ} :
      Passes run eps s₀ s → s.rejected.length < maxIter →
      (s.trial run).outcome = .ok t → -eps < t.value →
      StageEnds run eps s₀ maxIter
        ⟨.ok ⟨t.x, t.value, s.bracket.scale, s.rejected.length + 1⟩, (s.trial run).state,
          (s.reported run t).push (.searchFinished s.bracket.scale)⟩
  | failed {s : Stage σ α} {stop : Stop} :
      Passes run eps s₀ s → s.rejected.length < maxIter →
      (s.trial run).outcome = .error stop →
      StageEnds run eps s₀ maxIter
        ⟨.error stop, (s.trial run).state, s.events ++ (s.trial run).events⟩
  | exhausted {s : Stage σ α} :
      Passes run eps s₀ s → s.rejected.length = maxIter →
      StageEnds run eps s₀ maxIter
        ⟨.error (.error .searchConvergence), s.state, s.events.push (.solvesExhausted maxIter)⟩

/-! ## One trial -/

section Trial

variable {run : σ → α → Step Stop σ (Trial α χ) α} {eps : α} {maxIter : ℕ} {s : Stage σ α}

theorem Stage.search_of_accept {t : Trial α χ} (hleft : s.rejected.length < maxIter)
    (ht : (s.trial run).outcome = .ok t) (haccept : -eps < t.value) :
    s.search run eps maxIter
      = ⟨.ok ⟨t.x, t.value, s.bracket.scale, s.rejected.length + 1⟩, (s.trial run).state,
          (s.reported run t).push (.searchFinished s.bracket.scale)⟩ := by
  obtain ⟨left, hleft⟩ := Nat.exists_eq_succ_of_ne_zero (Nat.sub_ne_zero_of_lt hleft)
  unfold Stage.trial at ht
  unfold Stage.search
  rw [hleft, Spectrahedron.search]
  simp only [ht, if_pos haccept, Stage.reported, Stage.trial]

theorem Stage.search_of_error {stop : Stop} (hleft : s.rejected.length < maxIter)
    (ht : (s.trial run).outcome = .error stop) :
    s.search run eps maxIter
      = ⟨.error stop, (s.trial run).state, s.events ++ (s.trial run).events⟩ := by
  obtain ⟨left, hleft⟩ := Nat.exists_eq_succ_of_ne_zero (Nat.sub_ne_zero_of_lt hleft)
  unfold Stage.trial at ht
  unfold Stage.search
  rw [hleft, Spectrahedron.search]
  simp only [ht, Stage.trial]

theorem Stage.search_of_reject {t : Trial α χ} (hleft : s.rejected.length < maxIter)
    (ht : (s.trial run).outcome = .ok t) (hreject : ¬-eps < t.value)
    (hscale : Bracket.admissible (s.bracket.reject t.sensitivity).scale) :
    s.search run eps maxIter = (s.reject run t).search run eps maxIter := by
  have hsucc : maxIter - s.rejected.length = maxIter - (s.rejected.length + 1) + 1 := by omega
  unfold Stage.trial at ht
  unfold Stage.search
  rw [hsucc, Spectrahedron.search]
  simp only [ht, if_neg hreject, if_pos hscale, Stage.reject, Stage.reported, Stage.trial,
    List.length_cons]

theorem Stage.search_of_length_eq (hleft : s.rejected.length = maxIter) :
    s.search run eps maxIter = ⟨.error (.error .searchConvergence), s.state,
      s.events.push (.solvesExhausted maxIter)⟩ := by
  unfold Stage.search
  rw [hleft, Nat.sub_self]
  rfl

end Trial

/-! ## The loop -/

section Loop

variable {run : σ → α → Step Stop σ (Trial α χ) α} {eps : α} {s₀ s : Stage σ α} {maxIter : ℕ}
  (hscale : ∀ {s t}, Passes run eps s₀ s → (s.trial run).outcome = .ok t →
    Bracket.admissible (s.bracket.reject t.sensitivity).scale)

include hscale

/-- A search goes on from every stage that it passes. -/
theorem Passes.search_eq (h : Passes run eps s₀ s) (hleft : s.rejected.length ≤ maxIter) :
    s₀.search run eps maxIter = s.search run eps maxIter := by
  induction h with
  | start => rfl
  | step hpasses ht hreject ih =>
    have hlt := Nat.lt_of_succ_le hleft
    rw [ih (Nat.le_of_lt hlt), Stage.search_of_reject hlt ht hreject (hscale hpasses ht)]

/-- The search from a stage ends at one that it passes. -/
theorem Passes.ends_search (h : Passes run eps s₀ s) (hleft : s.rejected.length ≤ maxIter) :
    StageEnds run eps s₀ maxIter (s.search run eps maxIter) := by
  -- The induction is on the number of trials that are left.
  induction hn : maxIter - s.rejected.length generalizing s with
  | zero =>
    have hlength : s.rejected.length = maxIter := by omega
    rw [Stage.search_of_length_eq hlength]
    exact .exhausted h hlength
  | succ left ih =>
    have hlt : s.rejected.length < maxIter := by omega
    cases ht : (s.trial run).outcome with
    | error stop =>
      rw [Stage.search_of_error hlt ht]
      exact .failed h hlt ht
    | ok t =>
      by_cases haccept : -eps < t.value
      · rw [Stage.search_of_accept hlt ht haccept]
        exact .accepted h hlt ht haccept
      · rw [Stage.search_of_reject hlt ht haccept (hscale h ht)]
        have hlength : (s.reject run t).rejected.length = s.rejected.length + 1 := rfl
        exact ih (.step h ht haccept) (by omega) (by omega)

end Loop

end Spectrahedron
