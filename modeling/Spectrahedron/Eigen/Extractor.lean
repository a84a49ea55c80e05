import Spectrahedron.Eigen.Dense
import Spectrahedron.Eigen.Lanczos
import Spectrahedron.Kernel.Slice

/-!
# Extractors

The extractor of the top eigenpair in use is chosen by the dimension: Lanczos from a threshold
on, the dense one below it. Both work in the front of a slice of the caller and leave what lies
behind it as it is.
-/

namespace Spectrahedron

variable {α : Type} [Scalar α] {n : Nat}

/-- An extractor with its parameters. -/
inductive Extractor (α : Type) where
  | dense (d : Dense α)
  | lanczos (l : Lanczos α)

namespace Extractor

/-- A Lanczos extractor. A Krylov dimension of zero is taken for one. -/
def ofKrylovDim (krylovDim : Nat) (epsZero : α) (maxIter : Nat) : Extractor α :=
  lanczos ⟨max krylovDim 1, epsZero, maxIter, Nat.lt_of_lt_of_le Nat.one_pos (Nat.le_max_right _ _)⟩

/-- The extractor for matrices of dimension `n`. -/
def select (n lanczosMinDim krylovDim : Nat) (epsZero : α) (maxIter : Nat) : Extractor α :=
  if lanczosMinDim ≤ n then ofKrylovDim krylovDim epsZero maxIter else dense ⟨epsZero, maxIter⟩

/-- The number of work entries to provide for the extractor that `select` chooses. The Krylov
dimension counts as it is given, zero included. -/
def selectWorkLength (n lanczosMinDim krylovDim : Nat) : Nat :=
  if lanczosMinDim ≤ n then Lanczos.workLength n krylovDim else Dense.workLength n

/-- The name of an extractor. -/
def name : Extractor α → String
  | dense _ => "dense"
  | lanczos _ => "lanczos"

/-- The number of work entries that an extractor requires for matrices of dimension `n`. -/
def workLength (e : Extractor α) (n : Nat) : Nat :=
  match e with
  | dense _ => Dense.workLength n
  | lanczos l => Lanczos.workLength n l.krylovDim

/-- The result for a work slice that is too short. -/
@[inline] def shortage {ω : Type} (given required : Nat) (vec : Vector α n) (work : ω) :
    Extraction α n ω :=
  ⟨.error (.error .workShortage), vec, work, #[.extractorWorkShortage given required]⟩

/-- The regions of the dense extractor put back into a slice. -/
def joinDense (work : Array α) (w : Dense.Regions α n) : Array α :=
  w.toArray ++ Workspace.rest work (Dense.workLength n)

/-- The regions of the Lanczos extractor put back into a slice. -/
def joinLanczos {m : Nat} (work : Array α) (K : Krylov α n m) : Array α :=
  K.toArray ++ Workspace.rest work (Krylov.size n m)

/-- The top eigenpair of a matrix. The vector is the start of the Lanczos iteration. -/
@[specialize] def topEig (e : Extractor α) (G : Mat α n n) (tol : α) (vec : Vector α n)
    (work : Array α) : Extraction α n (Array α) :=
  match e with
  | dense d =>
    if h : Dense.workLength n ≤ work.size then
      (d.topEig G vec (Dense.Regions.ofSlice n work h)).mapWork (joinDense work)
    else shortage work.size (Dense.workLength n) vec work
  | lanczos l =>
    if h : Lanczos.workLength n l.krylovDim ≤ work.size then
      (l.topEig G tol vec (Krylov.ofSlice n (Lanczos.basisDim l.krylovDim n) work h)).mapWork
        (joinLanczos work)
    else shortage work.size (Lanczos.workLength n l.krylovDim) vec work

/-- A result of which the caller keeps the vector as a slice. -/
structure SliceExtraction (α : Type) where
  outcome : Except Stop α
  vec : Array α
  work : Array α
  events : Array (Event α)

/-- The result with the vector as a slice. -/
@[inline] def SliceExtraction.of {k : Nat} (e : Extraction α k (Array α)) : SliceExtraction α :=
  ⟨e.outcome, e.vec.toArray, e.work, e.events⟩

/-- The top eigenpair of a matrix in a slice. The lengths are checked where they are first needed:
not before the work slice, not for a matrix whose norm is taken for zero, and that of the matrix
not in dimension zero. -/
@[specialize] def topEigSlice (e : Extractor α) (n : Nat) (mat : Array α) (tol : α)
    (vec work : Array α) : SliceExtraction α :=
  let misfit : SliceExtraction α := ⟨.error (.fault .lengthMismatch), vec, work, #[]⟩
  if work.size < e.workLength n then
    .of (shortage work.size (e.workLength n) vec.toVector work)
  else
    match e with
    | dense d =>
      if hm : mat.size = n * n then
        let G := Mat.ofArray mat hm
        if hv : vec.size = n then .of (e.topEig G tol ⟨vec, hv⟩ work)
        else
          let dec := d.decompose G
          match Dense.topPair dec with
          | .ok _ => misfit
          | .error stop => ⟨.error stop, vec, work, dec.events d.maxSweeps⟩
      else misfit
    | lanczos l =>
      let normG := Slice.norm mat
      if normG ≤ l.epsZero then .of (l.topEigZero vec.toVector work)
      else if n = 0 ∧ vec.size = 0 then .of (l.topEigEmpty normG tol vec.toVector work)
      else if h : mat.size = n * n ∧ vec.size = n then
        .of (e.topEig (Mat.ofArray mat h.1) tol ⟨vec, h.2⟩ work)
      else misfit

end Extractor

end Spectrahedron
