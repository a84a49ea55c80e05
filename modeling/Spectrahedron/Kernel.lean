import Spectrahedron.Scalar
import Spectrahedron.Mat

/-!
# Kernels

The vector and matrix operations from which the algorithms are put together. Each sum starts at
zero and adds one term after the other in the order of the indices, so that its rounding is fixed.
-/

namespace Spectrahedron

open Scalar

variable {α : Type} [Scalar α] {m n : Nat}

/-! ## Sums and vectors -/

/-- The sum of `f 0`, `f 1`, …, added to zero one after the other. -/
@[specialize] def sum (f : Fin n → α) : α := Fin.foldl n (fun s i => s + f i) 0

/-- The sum of the squares. -/
@[specialize] def sumSquares (x : Vector α n) : α := sum fun i : Fin n => x.get i * x.get i

/-- The Euclidean norm. -/
@[specialize] def norm (x : Vector α n) : α := sqrt (sumSquares x)

/-- The inner product. -/
@[specialize] def inner (x y : Vector α n) : α := sum fun i : Fin n => x.get i * y.get i

/-- The multiple `a x`. -/
@[specialize] def scale (a : α) (x : Vector α n) : Vector α n := x.map (a * ·)

/-- The sum `y + a x`. -/
@[specialize] def addScaled (a : α) (x y : Vector α n) : Vector α n :=
  Vector.ofFn fun i => y.get i + a * x.get i

/-- The position of the first entry that no later entry exceeds. -/
@[specialize] def argmax (x : Vector α n) (h : 0 < n) : Fin n :=
  Fin.foldl n (fun best i => if x.get best < x.get i then i else best) ⟨0, h⟩

@[simp] theorem get_scale (a : α) (x : Vector α n) (i : Fin n) :
    (scale a x).get i = a * x.get i := by
  simp [scale]

@[simp] theorem get_addScaled (a : α) (x y : Vector α n) (i : Fin n) :
    (addScaled a x y).get i = y.get i + a * x.get i := by
  simp [addScaled]

/-! ## Matrices -/

namespace Mat

/-- The identity matrix. -/
@[specialize] def identity (α : Type) [Scalar α] (n : Nat) : Mat α n n :=
  ofFn fun r c => if r = c then 1 else 0

/-- The Frobenius norm. -/
@[specialize] def norm (A : Mat α m n) : α := Spectrahedron.norm A.data

/-- The multiple `a A`. -/
@[specialize] def scale (a : α) (A : Mat α m n) : Mat α m n := A.map (a * ·)

/-- The vector `a A x + b y`. -/
@[specialize] def transform (a : α) (A : Mat α m n) (x : Vector α n) (b : α) (y : Vector α m) :
    Vector α m :=
  Vector.ofFn fun r => a * (sum fun c => A.get r c * x.get c) + b * y.get r

/-- The vector `a Aᵀ x + b y`. -/
@[specialize] def transformTranspose (a : α) (A : Mat α m n) (x : Vector α m) (b : α)
    (y : Vector α n) : Vector α n :=
  Vector.ofFn fun c => a * (sum fun r => A.get r c * x.get r) + b * y.get c

/-- The matrix `a x xᵀ + A`. -/
@[specialize] def addRankOne (a : α) (x : Vector α n) (A : Mat α n n) : Mat α n n :=
  ofFn fun r c => a * x.get r * x.get c + A.get r c

/-- The trace. -/
@[specialize] def trace (A : Mat α n n) : α := sum fun i => A.get i i

/-- The trace of the product `A B`, summed down the columns of `A`. -/
@[specialize] def traceProduct (A B : Mat α n n) : α :=
  Fin.foldl n (fun s c => Fin.foldl n (fun s r => s + A.get r c * B.get c r) s) 0

@[simp] theorem get_identity (r c : Fin n) :
    (identity α n).get r c = if r = c then 1 else 0 := by
  simp [identity]

@[simp] theorem get_scale (a : α) (A : Mat α m n) (r : Fin m) (c : Fin n) :
    (A.scale a).get r c = a * A.get r c := by
  simp [scale]

@[simp] theorem get_transform (a : α) (A : Mat α m n) (x : Vector α n) (b : α) (y : Vector α m)
    (r : Fin m) :
    (A.transform a x b y).get r = a * (sum fun c => A.get r c * x.get c) + b * y.get r := by
  simp [transform]

@[simp] theorem get_transformTranspose (a : α) (A : Mat α m n) (x : Vector α m) (b : α)
    (y : Vector α n) (c : Fin n) :
    (A.transformTranspose a x b y).get c
      = a * (sum fun r => A.get r c * x.get r) + b * y.get c := by
  simp [transformTranspose]

@[simp] theorem get_addRankOne (a : α) (x : Vector α n) (A : Mat α n n) (r c : Fin n) :
    (A.addRankOne a x).get r c = a * x.get r * x.get c + A.get r c := by
  simp [addRankOne]

end Mat

end Spectrahedron
