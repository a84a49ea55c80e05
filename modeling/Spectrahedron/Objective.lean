import Spectrahedron.Kernel

/-!
# Objectives

A concave function of a symmetric matrix, with its gradient, as the solver sees it: a value and a
gradient that may fail. The value is asked for at slices, which the function reads as it likes; the
gradient may depend on how often it has been asked for and may leave entries of the matrix it is
written over as they are.

A few families of objectives follow.
-/

namespace Spectrahedron

open Scalar

/-- A function to be maximised over `n` by `n` matrices. -/
structure Objective (α : Type) (n : Nat) where
  /-- The value at the matrix in a slice. Which lengths of the slice are admitted is up to the
  function. -/
  value : Array α → Except Fault α
  /-- The gradient at the matrix `x`, written over the matrix `old`, when the gradient has been
  asked for `calls` times before. -/
  gradient : (calls : Nat) → (x old : Mat α n n) → Except Fault (Mat α n n)

variable {α : Type} {n : Nat}

namespace Objective

/-- The same objective after its gradient has been asked for `calls` times. -/
@[inline] def after (obj : Objective α n) (calls : Nat) : Objective α n where
  value := obj.value
  gradient k := obj.gradient (calls + k)

/-- The value at a matrix. -/
def valueAt (obj : Objective α n) (x : Mat α n n) : Except Fault α := obj.value x.toArray

/-! ## Families -/

variable [Scalar α]

/-- The matrix with the given diagonal and zeros elsewhere. -/
def diagonalMatrix (d : Fin n → α) : Mat α n n := Mat.ofFn fun r c => if r = c then d r else 0

/-- The objective `-∑ x_ii²`. Of a slice only the front that holds the matrix counts. -/
def diagonalSquares : Objective α n where
  value a := do
    let x : Mat α n n ← Mat.ofFront? a
    return -sum fun i : Fin n => x.get i i * x.get i i
  gradient _ x _ := .ok (diagonalMatrix fun i => -two * x.get i i)

/-- The objective `-∑ 1 / (x_ii + d)`. Of a slice only the front that holds the matrix counts. -/
def diagonalReciprocals (d : α) : Objective α n where
  value a := do
    let x : Mat α n n ← Mat.ofFront? a
    return -sum fun i : Fin n => 1 / (x.get i i + d)
  gradient _ x _ := .ok (diagonalMatrix fun i => 1 / ((x.get i i + d) * (x.get i i + d)))

/-- The objective `Tr (C X) - Tr (X X) / 2`, for `C` in a slice. The gradient needs `C` only at the
front of the slice; the value needs a slice of the very length. -/
def quadratic (c : Array α) : Objective α n where
  value a := do
    let C : Mat α n n ← Mat.ofArray? c
    let x : Mat α n n ← Mat.ofArray? a
    return C.traceProduct x - x.traceProduct x / two
  gradient _ x _ := do
    let C : Mat α n n ← Mat.ofFront? c
    return Mat.ofFn fun r k => C.get r k - x.get r k

/-- The objective `Tr (C X)`, for `C` in a slice. -/
def linear (c : Array α) : Objective α n where
  value a := do
    let C : Mat α n n ← Mat.ofArray? c
    let x : Mat α n n ← Mat.ofArray? a
    return C.traceProduct x
  gradient _ _ _ := Mat.ofArray? c

/-- A constant value, whatever the slice, and gradients that are given one after the other. The last
one is repeated; entries that are not given are left as they are, and those behind the matrix do not
count. -/
def scripted (value : α) (gradients : Array (Array (Option α))) : Objective α n where
  value _ := .ok value
  gradient calls _ old :=
    match gradients[min calls (gradients.size - 1)]? with
    | none => .error .outOfRange
    | some entries => .ok (old.patch entries)

end Objective

end Spectrahedron
