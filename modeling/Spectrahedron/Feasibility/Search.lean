import Spectrahedron.Feasibility.Bracket
import Spectrahedron.Feasibility.Surrogate
import Spectrahedron.FrankWolfe

/-!
# The search for a feasible matrix

A feasible matrix is sought as `t X` with `X` in the spectrahedron. At one trace scale `t`, the
surrogate is maximised over the spectrahedron; a value above `-eps` is accepted. Otherwise the sign
of the sensitivity says on which side of `t` to go on.

The search is written for any way of solving at one scale, which may keep a state of its own.
-/

namespace Spectrahedron

open Scalar

variable {α : Type} [Scalar α]

/-! ## The search -/

/-- A solution at one trace scale, with the value of the surrogate and its sensitivity. -/
structure Trial (α χ : Type) where
  x : χ
  value : α
  sensitivity : α

/-- An accepted solution, its trace scale, and the number of solves it took. -/
structure Solution (α χ : Type) where
  x : χ
  value : α
  scale : α
  solves : Nat

/-- The result of a computation with a state and events. -/
structure Step (ε σ β : Type) (α : Type) where
  outcome : Except ε β
  state : σ
  events : Array (Event α)

/-- Tries the scales of a bracket, at most `left` of them, after `number` others. -/
@[specialize] def search {σ χ : Type} (solveAt : σ → α → Step Stop σ (Trial α χ) α) (eps : α)
    (maxIter : Nat) : (left number : Nat) → Bracket α → σ → Array (Event α) →
    Step Stop σ (Solution α χ) α
  | 0, _, _, state, events =>
    ⟨.error (.error .searchConvergence), state, events.push (.solvesExhausted maxIter)⟩
  | left + 1, number, b, state, events =>
    let r := solveAt state b.scale
    match r.outcome with
    | .error stop => ⟨.error stop, r.state, events ++ r.events⟩
    | .ok t =>
      let events := (events ++ r.events).push (.trial number b.scale t.value t.sensitivity)
      if -eps < t.value then
        ⟨.ok ⟨t.x, t.value, b.scale, number + 1⟩, r.state, events.push (.searchFinished b.scale)⟩
      else
        let b := b.reject t.sensitivity
        if Bracket.admissible b.scale then
          search solveAt eps maxIter left (number + 1) b r.state events
        else
          ⟨.error (.error .searchConvergence), r.state,
            events.push (.scaleOutOfRange b.scale (number + 1))⟩

/-! ## Systems with a work buffer -/

/-- A system that owns the work slice of its solves. -/
structure Feasibility (α : Type) [Scalar α] where
  system : ConstraintSystem α
  work : Array α := #[]

namespace Feasibility

/-- The matrices in which the solutions of a system are sought. -/
abbrev Point (p : Feasibility α) : Type := Mat α p.system.dim p.system.dim

/-- The surrogate of the system at a trace scale. -/
def surrogate (p : Feasibility α) (scale : α) : Surrogate α := ⟨p.system, scale⟩

/-- The problem with its work slice resized for solves with the given settings. -/
def prepare (p : Feasibility α) (s : Settings α) : Feasibility α :=
  { p with work := Workspace.resize p.work (FrankWolfe.workLength s p.system.dim) 0 }

/-- The solution of a system at one trace scale, in a work slice. The work slice is the state. -/
@[specialize] def solveScale (system : ConstraintSystem α) (par : SearchSettings α) (work : Array α)
    (scale : α) : Step Stop (Array α) (Trial α (Mat α system.dim system.dim)) α :=
  if Bracket.admissible scale then
    let f : Surrogate α := ⟨system, scale⟩
    let work := Workspace.resize work (FrankWolfe.workLength par.solver system.dim) 0
    let r := FrankWolfe.solve par.solver f.objective system.iterations par.curvature work
    match r.outcome with
    | .error stop => ⟨.error stop, r.work, r.trail.events⟩
    | .ok x =>
      let value := f.value x
      let sensitivity := f.sensitivity x
      if isFinite value && isFinite sensitivity then
        ⟨.ok ⟨x.scale scale, value, sensitivity⟩, r.work, r.trail.events⟩
      else
        ⟨.error (.error .nonFiniteValue), r.work,
          r.trail.events.push (.nonFiniteSurrogate scale)⟩
  else ⟨.error (.error .invalidParam), work, #[.badScale scale]⟩

/-- The solution at one trace scale. -/
@[specialize] def solveAt (p : Feasibility α) (par : SearchSettings α) (scale : α) :
    Step Stop (Array α) (Trial α p.Point) α :=
  solveScale p.system par p.work scale

/-- A feasible matrix, sought from the first trace scale of the settings on. -/
@[specialize] def solve (p : Feasibility α) (par : SearchSettings α) :
    Step Stop (Array α) (Solution α p.Point) α :=
  search (solveScale p.system par) p.system.eps par.maxIter par.maxIter 0
    (Bracket.start par.traceInit) p.work #[.searchStarted, .searchSettings par]

end Feasibility

end Spectrahedron
