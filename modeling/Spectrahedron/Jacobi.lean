import Spectrahedron.Kernel
import Spectrahedron.Event

/-!
# The cyclic Jacobi method

A symmetric matrix is made diagonal by plane rotations. Each rotation annihilates one entry off
the diagonal and is applied to the matrix from both sides and to the basis from the right, so
that at every moment the matrix is the given one written in the basis. A sweep visits each pair
of indices once; the method ends with the first sweep that finds nothing to rotate.
-/

namespace Spectrahedron

open Scalar

variable {α : Type} [Scalar α] {n : Nat}

/-! ## One rotation -/

/-- The cosine and the sine of an angle. -/
structure Rotation (α : Type) where
  cos : α
  sin : α

namespace Rotation

/-- The rotation that annihilates the entry `d` between the diagonal entries `a` and `b`. Its
tangent is the root of least magnitude of `t² + 2 ζ t - 1`, with `ζ = (b - a) / 2 d`. -/
@[specialize] def annihilating (a b d : α) : Rotation α :=
  let zeta := (b - a) / (two * d)
  let t := if 0 < zeta then 1 / (zeta + sqrt (1 + zeta * zeta))
    else -1 / (-zeta + sqrt (1 + zeta * zeta))
  let c := recip (sqrt (1 + t * t))
  ⟨c, c * t⟩

/-- The first coordinate of the rotated point `(x, y)`. -/
@[inline] def fst (q : Rotation α) (x y : α) : α := q.cos * x - q.sin * y

/-- The second coordinate of the rotated point `(x, y)`. -/
@[inline] def snd (q : Rotation α) (x y : α) : α := q.sin * x + q.cos * y

/-- Columns `i` and `j` of a matrix replaced by their rotated combinations. -/
@[specialize] def columns {m : Nat} (q : Rotation α) (i j : Fin n) (Z : Mat α m n) : Mat α m n :=
  Mat.ofFn fun r c =>
    if c = i then q.fst (Z.get r i) (Z.get r j)
    else if c = j then q.snd (Z.get r i) (Z.get r j)
    else Z.get r c

/-- A symmetric matrix rotated from both sides in the plane of `i` and `j`. The rotation is taken
to annihilate entry `(i, j)`, which becomes an exact zero; the other entries are computed from
columns `i` and `j` and written on both sides of the diagonal. -/
@[specialize] def conjugate (q : Rotation α) (i j : Fin n) (X : Mat α n n) : Mat α n n :=
  let a := X.get i i
  let b := X.get j j
  let d := X.get i j
  let c := q.cos
  let s := q.sin
  Mat.ofFn fun r k =>
    if r = i then
      if k = i then c * c * a + s * s * b - two * c * s * d
      else if k = j then 0
      else q.fst (X.get k i) (X.get k j)
    else if r = j then
      if k = i then 0
      else if k = j then s * s * a + c * c * b + two * c * s * d
      else q.snd (X.get k i) (X.get k j)
    else if k = i then q.fst (X.get r i) (X.get r j)
    else if k = j then q.snd (X.get r i) (X.get r j)
    else X.get r k

end Rotation

/-! ## Sweeps -/

/-- A matrix on its way to diagonal form, and the basis in which it is written. -/
structure Diagonalization (α : Type) (n : Nat) where
  mat : Mat α n n
  basis : Mat α n n

namespace Diagonalization

/-- Whether entry `(i, j)` is still to be annihilated: its square exceeds both the tolerance times
the product of the two diagonal entries and the tolerance times the square of the norm. -/
@[inline] def significant (tol sqNorm : α) (X : Mat α n n) (i j : Fin n) : Prop :=
  let d := X.get i j
  tol * abs (X.get i i * X.get j j) < d * d ∧ tol * sqNorm < d * d

instance instDecidableSignificant (tol sqNorm : α) (X : Mat α n n) (i j : Fin n) :
    Decidable (significant tol sqNorm X i j) :=
  inferInstanceAs (Decidable (_ ∧ _))

/-- The rotation that annihilates entry `(i, j)`, applied to the matrix and to the basis. -/
@[specialize] def rotate (s : Diagonalization α n) (i j : Fin n) : Diagonalization α n :=
  let q := Rotation.annihilating (s.mat.get i i) (s.mat.get j j) (s.mat.get i j)
  ⟨q.conjugate i j s.mat, q.columns i j s.basis⟩

/-- The pairs of indices above the diagonal, row after row. -/
def pairs (n : Nat) : List (Fin n × Fin n) :=
  (List.finRange n).flatMap fun i => ((List.finRange n).filter (i < ·)).map fun j => (i, j)

/-- One visit of a pair: the state, and whether the sweep has rotated so far. -/
@[specialize] def visit (tol sqNorm : α) (s : Diagonalization α n × Bool) (p : Fin n × Fin n) :
    Diagonalization α n × Bool :=
  if significant tol sqNorm s.1.mat p.1 p.2 then (s.1.rotate p.1 p.2, true) else s

/-- One sweep: the state after it, and whether it has rotated. -/
@[specialize] def sweep (tol sqNorm : α) (s : Diagonalization α n) : Diagonalization α n × Bool :=
  (pairs n).foldl (visit tol sqNorm) (s, false)

/-- At most the given number of sweeps: whether the last one found nothing to rotate, and the
state after it. -/
@[specialize] def sweeps (tol sqNorm : α) : Nat → Diagonalization α n → Bool × Diagonalization α n
  | 0, s => (false, s)
  | k + 1, s =>
    match sweep tol sqNorm s with
    | (s', true) => sweeps tol sqNorm k s'
    | (s', false) => (true, s')

/-- The start: the given matrix in the standard basis. -/
@[inline] def start (A : Mat α n n) : Diagonalization α n := ⟨A, Mat.identity α n⟩

end Diagonalization

/-! ## The decomposition -/

/-- The result of the Jacobi method. The columns of `basis` are the eigenvectors; the eigenvalues
are on the diagonal of `mat`. -/
structure EigenDecomposition (α : Type) (n : Nat) extends Diagonalization α n where
  converged : Bool

namespace EigenDecomposition

/-- The number of work entries that the method requires beside the matrix and the basis: it works
in place. -/
def workLength (_n : Nat) : Nat := 0

/-- The eigenvalues, in the order of the eigenvectors. -/
@[inline] def values (e : EigenDecomposition α n) : Vector α n := e.mat.diagonal

/-- What is reported of a decomposition with a limit on its sweeps. -/
def events (e : EigenDecomposition α n) (maxSweeps : Nat) : Array (Event α) :=
  if e.converged then #[] else #[.sweepsExhausted maxSweeps]

end EigenDecomposition

/-- The eigenvalue decomposition of a symmetric matrix in at most `maxSweeps` sweeps. -/
@[specialize] def Mat.eigen (A : Mat α n n) (epsZero : α) (maxSweeps : Nat) :
    EigenDecomposition α n :=
  let r := Diagonalization.sweeps (epsZero * epsZero) (sumSquares A.data) maxSweeps
    (Diagonalization.start A)
  ⟨r.2, r.1⟩

/-- The eigenvalue decomposition of a matrix in a slice, for a caller who takes the eigenvalues in
a slice of a given length. -/
def Slice.eigen (n : Nat) (mat : Array α) (valuesLength : Nat) (epsZero : α) (maxSweeps : Nat) :
    Except Fault (EigenDecomposition α n) := do
  let A : Mat α n n ← Mat.ofArray? mat
  if valuesLength = n then return A.eigen epsZero maxSweeps else throw .lengthMismatch

end Spectrahedron
