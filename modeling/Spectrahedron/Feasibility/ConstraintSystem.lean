import Spectrahedron.SquareMatrix

/-!
# Constraint systems

The problem of finding a symmetric positive semidefinite matrix `X` with `Tr (A_i X) ≤ b_i + eps`
for each of a number of constraints.
-/

namespace Spectrahedron

open Scalar

/-- A system of constraints. There is at least one of them, the matrices have one positive
dimension, and the accuracy is positive and finite. -/
structure ConstraintSystem (α : Type) [Scalar α] where
  dim : Nat
  count : Nat
  matrices : Vector (Mat α dim dim) count
  bounds : Vector α count
  eps : α
  dim_pos : 0 < dim
  count_pos : 0 < count
  eps_pos : 0 < eps
  eps_finite : isFinite eps = true

namespace ConstraintSystem

variable {α : Type} [Scalar α]

/-- The first matrix that does not have the dimension of the system. -/
def misfit? (dim : Nat) (matrices : Array (SquareMatrix α)) : Option (Fin matrices.size) :=
  (List.finRange matrices.size).find? fun i => matrices[i].dim ≠ dim

omit [Scalar α] in
theorem dim_of_misfit?_eq_none {dim : Nat} {matrices : Array (SquareMatrix α)}
    (h : misfit? dim matrices = none) (i : Fin matrices.size) : matrices[i].dim = dim := by
  have hi := List.find?_eq_none.1 h i (List.mem_finRange i)
  simpa using hi

/-- The system of the constraints `Tr (A_i X) ≤ b_i + eps`. Data that make no system are refused,
with the event that says why: first an empty system, then the accuracy, then the number of the
bounds, then the dimension of the matrices. -/
def build (dim : Nat) (matrices : Array (SquareMatrix α)) (bounds : Array α) (eps : α) :
    Except (SolveError × Event α) (ConstraintSystem α) :=
  if h1 : 0 < dim ∧ 0 < matrices.size then
    if h2 : 0 < eps ∧ isFinite eps = true then
      if h3 : bounds.size = matrices.size then
        match h4 : misfit? dim matrices with
        | some i => .error (.dimensionMismatch, .sizeMismatch i matrices[i].dim dim)
        | none =>
          .ok {
            dim := dim
            count := matrices.size
            matrices := Vector.ofFn fun i => dim_of_misfit?_eq_none h4 i ▸ matrices[i].entries
            bounds := ⟨bounds, h3⟩
            eps := eps
            dim_pos := h1.1
            count_pos := h1.2
            eps_pos := h2.1
            eps_finite := h2.2 }
      else .error (.dimensionMismatch, .countMismatch matrices.size bounds.size)
    else .error (.invalidParam, .badAccuracy)
  else .error (.invalidParam, .emptySystem dim matrices.size)

/-- The temperature of the surrogate, `max (ln m / eps) 1` for `m` constraints. -/
def temperature (s : ConstraintSystem α) : α := larger (log (s.count : α) / s.eps) 1

/-- The number of iterations of a solve at one trace scale, the whole part of `1 / eps` but at
least one. It is capped where that is out of the range of words. -/
def iterations (s : ConstraintSystem α) : Nat :=
  max ((floorWord? (recip s.eps)).getD (wordBound - 1)) 1

end ConstraintSystem

end Spectrahedron
