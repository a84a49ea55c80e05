import Spectrahedron.FrankWolfe

/-!
# Problems with a work buffer

A problem over the spectrahedron that owns the work slice of its solves. Each solve resizes the
slice to the length that its settings ask for and leaves it as it ends; the next solve finds it so.
-/

namespace Spectrahedron

/-- The maximisation of an objective over the spectrahedron by a number of iterations. -/
structure BoundedTrace (α : Type) (n : Nat) where
  objective : Objective α n
  iterations : Nat
  curvature : Option α
  work : Array α := #[]
  /-- How often the gradient has been asked for so far. -/
  calls : Nat := 0

namespace BoundedTrace

variable {α : Type} [Scalar α] {n : Nat}

/-- The problem with its work slice resized for solves with the given settings. -/
def prepare (p : BoundedTrace α n) (s : Settings α) : BoundedTrace α n :=
  { p with work := Workspace.resize p.work (FrankWolfe.workLength s n) 0 }

/-- A solve of a prepared problem, and the problem after it. -/
@[specialize] def solvePrepared (p : BoundedTrace α n) (s : Settings α) :
    FrankWolfe.Run α n × BoundedTrace α n :=
  let r := FrankWolfe.solve s (p.objective.after p.calls) p.iterations p.curvature p.work
  (r, { p with work := r.work, calls := p.calls + r.trail.visited.size })

/-- A solve with the settings `s`, for which the problem is prepared with the settings `query`; and
the problem after it. -/
@[specialize] def solve (p : BoundedTrace α n) (s query : Settings α) :
    FrankWolfe.Run α n × BoundedTrace α n :=
  (p.prepare query).solvePrepared s

end BoundedTrace

end Spectrahedron
