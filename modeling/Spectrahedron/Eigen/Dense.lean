import Spectrahedron.Eigen.Extraction
import Spectrahedron.Jacobi
import Spectrahedron.Workspace

/-!
# The dense extractor

The top eigenpair read off a full eigenvalue decomposition. It needs no starting vector, and is
suited for small matrices.
-/

namespace Spectrahedron

variable {α : Type} [Scalar α] {n : Nat}

/-- The parameters of the dense extractor. -/
structure Dense (α : Type) where
  epsZero : α
  maxSweeps : Nat

namespace Dense

/-- The regions of the work slice: a copy of the matrix that is made diagonal, its eigenvalues and
its eigenvectors. -/
structure Regions (α : Type) (n : Nat) where
  mat : Mat α n n
  values : Vector α n
  vectors : Mat α n n

/-- The number of work entries for matrices of a dimension. -/
def workLength (n : Nat) : Nat := n * n + n + n * n + EigenDecomposition.workLength n

namespace Regions

/-- The regions at the front of a slice. -/
def ofSlice (n : Nat) (work : Array α) (h : workLength n ≤ work.size) : Regions α n :=
  have h' : n * n + n + n * n ≤ work.size := by
    simp only [workLength, EigenDecomposition.workLength] at h
    omega
  { mat := ⟨Workspace.window work 0 (n * n) (by omega)⟩
    values := Workspace.window work (n * n) n (by omega)
    vectors := ⟨Workspace.window work (n * n + n) (n * n) (by omega)⟩ }

/-- The regions one after the other. -/
def toArray (w : Regions α n) : Array α :=
  w.mat.toArray ++ w.values.toArray ++ w.vectors.toArray

/-- What a decomposition leaves in the regions. Without convergence there are no eigenvalues to
write. -/
@[inline] def store (w : Regions α n) (e : EigenDecomposition α n) : Regions α n :=
  { mat := e.mat
    values := if e.converged then e.values else w.values
    vectors := e.basis }

end Regions

/-- The decomposition from which the eigenpair is read off. -/
@[specialize] def decompose (d : Dense α) (G : Mat α n n) : EigenDecomposition α n :=
  G.eigen d.epsZero d.maxSweeps

/-- The eigenpair of the largest eigenvalue of a decomposition, the first of them if there are
several. -/
@[specialize] def topPair (e : EigenDecomposition α n) : Except Stop (α × Vector α n) :=
  if e.converged then
    if h : 0 < n then
      let i := argmax e.values h
      .ok (e.values.get i, e.basis.col i)
    else .error (.fault .outOfRange)
  else .error (.error .eigenConvergence)

/-- The top eigenpair of a matrix. -/
@[specialize] def topEig (d : Dense α) (G : Mat α n n) (vec : Vector α n) (w : Regions α n) :
    Extraction α n (Regions α n) :=
  let e := d.decompose G
  let events := e.events d.maxSweeps
  match topPair e with
  | .ok (value, v) => ⟨.ok value, v, w.store e, events⟩
  | .error stop => ⟨.error stop, vec, w.store e, events⟩

end Dense

end Spectrahedron
