import Spectrahedron.Kernel

/-!
# Kernels on slices

The kernels on plain arrays, as a caller holds them who keeps vectors and matrices in slices of
one buffer. Each checks that the lengths fit together and then applies the kernel of the same
name; when they do not fit, the answer is the fault `lengthMismatch`.
-/

namespace Spectrahedron.Slice

variable {α : Type} [Scalar α]

/-- The array as a vector of length `n`, when it has that length. -/
@[inline] def toVector? (n : Nat) (a : Array α) : Except Fault (Vector α n) :=
  if h : a.size = n then .ok ⟨a, h⟩ else .error .lengthMismatch

/-- The Euclidean norm. -/
def norm (x : Array α) : α := Spectrahedron.norm x.toVector

/-- The inner product of two slices of one length. -/
def inner (x y : Array α) : Except Fault α := do
  let y ← toVector? x.size y
  return Spectrahedron.inner x.toVector y

/-- The contents of `y` after `x`, of the same length, is copied over it. -/
def copy (x y : Array α) : Except Fault (Array α) :=
  if x.size = y.size then .ok x else .error .lengthMismatch

/-- The multiple `a x`. -/
def scale (a : α) (x : Array α) : Array α := (Spectrahedron.scale a x.toVector).toArray

/-- The sum `y + a x` of two slices of one length. -/
def addScaled (a : α) (x y : Array α) : Except Fault (Array α) := do
  let y ← toVector? x.size y
  return (Spectrahedron.addScaled a x.toVector y).toArray

/-- The vector `a A x + b y`, where `A` is an `m` by `n` matrix. -/
def transform (m n : Nat) (a : α) (mat x : Array α) (b : α) (y : Array α) :
    Except Fault (Array α) := do
  let A ← Mat.ofArray? mat
  let x ← toVector? n x
  let y ← toVector? m y
  return (Mat.transform a A x b y).toArray

/-- The vector `a Aᵀ x + b y`, where `A` is an `m` by `n` matrix. -/
def transformTranspose (m n : Nat) (a : α) (mat x : Array α) (b : α) (y : Array α) :
    Except Fault (Array α) := do
  let A ← Mat.ofArray? mat
  let x ← toVector? m x
  let y ← toVector? n y
  return (Mat.transformTranspose a A x b y).toArray

/-- The matrix `a x xᵀ + A`, where `A` is an `n` by `n` matrix. -/
def addRankOne (n : Nat) (a : α) (x mat : Array α) : Except Fault (Array α) := do
  let x ← toVector? n x
  let A ← Mat.ofArray? mat
  return (Mat.addRankOne a x A).toArray

/-- The trace of the product of two `n` by `n` matrices. -/
def traceProduct (n : Nat) (a b : Array α) : Except Fault α := do
  let A : Mat α n n ← Mat.ofArray? a
  let B : Mat α n n ← Mat.ofArray? b
  return Mat.traceProduct A B

end Spectrahedron.Slice
