import Spectrahedron.Feasibility.ConstraintSystem
import Spectrahedron.Objective
import Spectrahedron.Workspace

/-!
# The surrogate of a constraint system

At a trace scale `t` and with the temperature `M`, the surrogate

  `f X = -(1 / M) ln ∑ exp (M (t Tr (A_i X) - b_i))`

is a smooth lower approximation of the negated worst violation `-max (t Tr (A_i X) - b_i)`. The
exponents are shifted by the largest of them, so that no exponential overflows.
-/

namespace Spectrahedron

open Scalar

variable {α : Type} [Scalar α]

/-! ## Soft maximum -/

/-- The largest entry. -/
@[specialize] def greatest {m : Nat} (z : Vector α m) (h : 0 < m) : α :=
  Fin.foldl m (fun s i => larger s (z.get i)) (z.get ⟨0, h⟩)

/-- The weights `exp z_i / ∑ exp z_j` and the logarithm of the sum. -/
structure SoftMax (α : Type) (m : Nat) where
  weights : Vector α m
  logSum : α

/-- The weights and the logarithm of the sum of the exponentials of a list of exponents. -/
@[specialize] def softMax {m : Nat} (z : Vector α m) (h : 0 < m) : SoftMax α m :=
  let top := greatest z h
  let e := z.map fun x => exp (x - top)
  let total := sum fun i : Fin m => e.get i
  ⟨scale (recip total) e, top + log total⟩

/-! ## The surrogate -/

/-- The surrogate of a system at a trace scale. -/
structure Surrogate (α : Type) [Scalar α] where
  system : ConstraintSystem α
  scale : α

namespace Surrogate

/-- The temperature. -/
def temperature (f : Surrogate α) : α := f.system.temperature

/-- The exponents `M (t Tr (A_i X) - b_i)`. -/
@[specialize] def exponents (f : Surrogate α) (x : Mat α f.system.dim f.system.dim) :
    Vector α f.system.count :=
  Vector.ofFn fun i =>
    f.temperature * (f.scale * (f.system.matrices.get i).traceProduct x - f.system.bounds.get i)

/-- The weights of the constraints at `X`. -/
@[specialize] def soft (f : Surrogate α) (x : Mat α f.system.dim f.system.dim) :
    SoftMax α f.system.count :=
  softMax (f.exponents x) f.system.count_pos

/-- The value at `X`. -/
@[specialize] def value (f : Surrogate α) (x : Mat α f.system.dim f.system.dim) : α :=
  -(f.soft x).logSum / f.temperature

/-- The derivative of the value at `X` with respect to the trace scale, `-∑ w_i Tr (A_i X)`. -/
@[specialize] def sensitivity (f : Surrogate α) (x : Mat α f.system.dim f.system.dim) : α :=
  let w := (f.soft x).weights
  Fin.foldl f.system.count (fun s i => s - w.get i * (f.system.matrices.get i).traceProduct x) 0

/-- The gradient at `X`, `-t ∑ w_i (A_i + A_iᵀ) / 2`, added up over a multiple by zero of the
matrix `old`. -/
@[specialize] def gradient (f : Surrogate α) (x old : Mat α f.system.dim f.system.dim) :
    Mat α f.system.dim f.system.dim :=
  let w := (f.soft x).weights
  Mat.ofFn fun r c =>
    Fin.foldl f.system.count (fun s i =>
      let A := f.system.matrices.get i
      s + -f.scale * w.get i / two * (A.get r c + A.get c r)) (0 * old.get r c)

/-- The surrogate as an objective. -/
@[specialize] def objective (f : Surrogate α) : Objective α f.system.dim where
  value a := do
    let x : Mat α f.system.dim f.system.dim ← Mat.ofArray? a
    return f.value x
  gradient _ x old := .ok (f.gradient x old)

/-- The gradient at a matrix in a slice, written over a slice. Entries of the latter beyond the
matrix are multiplied by zero. -/
def gradientSlice (f : Surrogate α) (x old : Array α) : Except Fault (Array α) := do
  let X : Mat α f.system.dim f.system.dim ← Mat.ofArray? x
  let n := f.system.dim
  if h : 0 + n * n ≤ old.size then
    let G := f.gradient X ⟨Workspace.window old 0 (n * n) h⟩
    return G.toArray ++ (Workspace.rest old (n * n)).map (0 * ·)
  else throw .outOfRange

end Surrogate

end Spectrahedron
