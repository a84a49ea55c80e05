import Spectrahedron.Eigen.Extraction
import Spectrahedron.Jacobi
import Spectrahedron.Workspace

/-!
# The Lanczos extractor

The top eigenpair by restarted Lanczos iteration with full reorthogonalization.

**One restart.** From a unit vector, an orthonormal basis of at most `krylovDim` vectors is built,
each the image of the one before it, made orthogonal to all earlier ones. Where the image lies in
the span of the basis already, the basis goes on with the coordinate direction that is least
covered by it. The matrix in the coordinates of the basis is tridiagonal; its top eigenpair gives
the Ritz value and the Ritz vector.

**The end.** The Ritz pair is accepted when its residual estimate is within the tolerance times
the Frobenius norm of the matrix; otherwise the next restart begins from the Ritz vector.
-/

namespace Spectrahedron

open Scalar Vec

variable {α : Type} [Scalar α] {n m : Nat}

/-- The parameters of the Lanczos extractor. -/
structure Lanczos (α : Type) where
  /-- The greatest dimension of a basis. -/
  krylovDim : Nat
  epsZero : α
  /-- The greatest number of restarts, and of sweeps of the decomposition in each of them. -/
  maxIter : Nat
  krylovDim_pos : 0 < krylovDim

/-! ## Unit vectors -/

/-- The coordinate direction `k`, written over a vector. -/
@[specialize] def coordinateOver (v : Vector α n) (k : Fin n) : Vector α n :=
  setEntry (scale 0 v) k 1

/-- The vector divided by its norm, or the first coordinate direction when the norm is taken for
zero. -/
@[specialize] def normalize (epsZero : α) (v : Vector α n) (h : 0 < n) : Vector α n :=
  let r := norm v
  if epsZero < r then scale (recip r) v else coordinateOver v ⟨0, h⟩

/-- `normalize` of a vector that may be empty. An empty vector has no coordinate directions. -/
@[specialize] def normalize? (epsZero : α) (v : Vector α n) : Except Fault (Vector α n) :=
  if h : 0 < n then .ok (normalize epsZero v h)
  else if epsZero < norm v then .ok v else .error .outOfRange

/-! ## The regions of the work slice -/

/-- The state of a restart, in the order of its regions in the work slice: the basis, the vector
being worked on, the diagonal and the couplings of the tridiagonal matrix, that matrix, its
eigenvalues and its eigenvectors. -/
structure Krylov (α : Type) (n m : Nat) where
  basis : Mat α n m
  image : Vector α n
  diag : Vector α m
  coupling : Vector α m
  tri : Mat α m m
  values : Vector α m
  vectors : Mat α m m

namespace Krylov

/-- The number of entries of all regions. -/
def size (n m : Nat) : Nat := n * m + n + m + m + m * m + m + m * m

/-- The regions at the front of a slice. -/
def ofSlice (n m : Nat) (work : Array α) (h : size n m ≤ work.size) : Krylov α n m :=
  have h' : n * m + n + m + m + m * m + m + m * m ≤ work.size := h
  { basis := ⟨Workspace.window work 0 (n * m) (by omega)⟩
    image := Workspace.window work (n * m) n (by omega)
    diag := Workspace.window work (n * m + n) m (by omega)
    coupling := Workspace.window work (n * m + n + m) m (by omega)
    tri := ⟨Workspace.window work (n * m + n + m + m) (m * m) (by omega)⟩
    values := Workspace.window work (n * m + n + m + m + m * m) m (by omega)
    vectors := ⟨Workspace.window work (n * m + n + m + m + m * m + m) (m * m) (by omega)⟩ }

/-- The regions one after the other. -/
def toArray (K : Krylov α n m) : Array α :=
  K.basis.toArray ++ K.image.toArray ++ K.diag.toArray ++ K.coupling.toArray ++ K.tri.toArray
    ++ K.values.toArray ++ K.vectors.toArray

/-! ## The basis -/

/-- The vector less its components along the first `count` basis vectors, taken off one after the
other. -/
@[specialize] def project (B : Mat α n m) (count : Nat) (h : count ≤ m) (w : Vector α n) :
    Vector α n :=
  Fin.foldl count (fun w i =>
    let v := B.col (i.castLE h)
    addScaled (-inner w v) v w) w

/-- The projection done twice, which takes off what rounding has left over. -/
@[specialize] def orthogonalize (B : Mat α n m) (count : Nat) (h : count ≤ m) (w : Vector α n) :
    Vector α n :=
  project B count h (project B count h w)

/-- How much of a coordinate direction lies in the span of the first `count` basis vectors. -/
@[specialize] def coverage (B : Mat α n m) (count : Nat) (h : count ≤ m) (k : Fin n) : α :=
  sum fun i : Fin count => B.get k (i.castLE h) * B.get k (i.castLE h)

/-- The less covered one of the best coordinate so far and the coordinate `k`, with its coverage.
The earlier one is kept in a tie, and a first one must have finite coverage. -/
@[specialize] def lessCovered (B : Mat α n m) (count : Nat) (h : count ≤ m)
    (best : Option (Fin n × α)) (k : Fin n) : Option (Fin n × α) :=
  let c := coverage B count h k
  match best with
  | none => if isFinite c then some (k, c) else none
  | some (l, c') => if c < c' then some (k, c) else some (l, c')

/-- The first coordinate of least coverage among those of finite coverage, and the coordinate
`first` when there is none. -/
@[specialize] def leastCovered (B : Mat α n m) (count : Nat) (h : count ≤ m) (first : Fin n) :
    Fin n :=
  match Fin.foldl n (lessCovered B count h) none with
  | none => first
  | some (k, _) => k

/-- A unit vector orthogonal to the first `count` basis vectors, made from the least covered
coordinate direction and written over the vector `old`. -/
@[specialize] def fresh (B : Mat α n m) (count : Nat) (h : count ≤ m) (first : Fin n)
    (old : Vector α n) : Vector α n :=
  let e := orthogonalize B count h (coordinateOver old (leastCovered B count h first))
  scale (recip (norm e)) e

/-- The step that works on basis vector `j`: its image, the entries of the tridiagonal matrix, and
the next basis vector if there is room for one. A coupling up to `tiny` counts as zero. -/
@[specialize] def extend (G : Mat α n n) (tiny : α) (first : Fin n) (K : Krylov α n m)
    (j : Fin m) : Krylov α n m :=
  let v := K.basis.col j
  let image := G.transform 1 v 0 K.image
  let diag := setEntry K.diag j (inner image v)
  let w := orthogonalize K.basis (j.val + 1) j.isLt image
  let b := norm w
  if h : j.val + 1 < m then
    let next : Fin m := ⟨j.val + 1, h⟩
    if tiny < b then
      { K with
        image := w
        diag := diag
        coupling := setEntry K.coupling j b
        basis := K.basis.setCol next (scale (recip b) w) }
    else
      { K with
        image := w
        diag := diag
        coupling := setEntry K.coupling j 0
        basis := K.basis.setCol next
          (fresh K.basis (j.val + 1) j.isLt first (K.basis.col next)) }
  else
    { K with
      image := w
      diag := diag
      coupling := setEntry K.coupling j (if b ≤ tiny then 0 else b) }

/-- The whole basis, from its first vector. -/
@[specialize] def build (G : Mat α n n) (tiny : α) (hm : 0 < m) (hmn : m ≤ n) (v : Vector α n)
    (K : Krylov α n m) : Krylov α n m :=
  Fin.foldl m (fun K j => K.extend G tiny ⟨0, Nat.lt_of_lt_of_le hm hmn⟩ j)
    { K with basis := K.basis.setCol ⟨0, hm⟩ v }

/-! ## The Ritz pair -/

/-- The tridiagonal matrix of the diagonal and the couplings, written over the previous one. -/
@[specialize] def tridiagonal (K : Krylov α n m) : Mat α m m :=
  Mat.ofFn fun r c =>
    if r = c then K.diag.get r
    else if r.val = c.val + 1 then K.coupling.get c
    else if c.val = r.val + 1 then K.coupling.get r
    else 0 * K.tri.get r c

/-- The decomposition of the tridiagonal matrix, which takes its place. -/
@[specialize] def diagonalize (K : Krylov α n m) (epsZero : α) (maxSweeps : Nat) :
    EigenDecomposition α m × Krylov α n m :=
  let e := K.tridiagonal.eigen epsZero maxSweeps
  (e, { K with
    tri := e.mat
    values := if e.converged then e.values else K.values
    vectors := e.basis })

/-- The combination of the basis vectors with the coefficients `s`, of norm one, written over the
vector `old`. -/
@[specialize] def combine (K : Krylov α n m) (s : Vector α m) (old : Vector α n) : Vector α n :=
  let u := K.basis.transform 1 s 0 old
  scale (recip (norm u)) u

/-- The residual estimate of the Ritz pair with the coefficients `s`: the last coupling times the
last coefficient. A basis of the whole space leaves no residual. -/
@[specialize] def residual (K : Krylov α n m) (s : Vector α m) (hm : 0 < m) : α :=
  if m = n then 0
  else
    let last : Fin m := ⟨m - 1, Nat.sub_lt hm Nat.one_pos⟩
    K.coupling.get last * abs (s.get last)

end Krylov

/-! ## Restarts -/

/-- The outcome of one restart. Without convergence of the tridiagonal decomposition there is no
Ritz pair. -/
structure Restart (α : Type) (n m : Nat) where
  /-- The Ritz value and its residual estimate. -/
  ritz : Option (α × α)
  vec : Vector α n
  work : Krylov α n m
  events : Array (Event α)

namespace Lanczos

/-- The dimension of the bases for matrices of dimension `n`. -/
def basisDim (krylovDim n : Nat) : Nat := min krylovDim n

/-- The number of work entries for matrices of dimension `n`. -/
def workLength (n krylovDim : Nat) : Nat :=
  Krylov.size n (basisDim krylovDim n) + EigenDecomposition.workLength (basisDim krylovDim n)

/-- One restart from a vector. -/
@[specialize] def restart (l : Lanczos α) (G : Mat α n n) (normG : α) (hm : 0 < m) (hmn : m ≤ n)
    (v : Vector α n) (K : Krylov α n m) : Restart α n m :=
  let u := normalize l.epsZero v (Nat.lt_of_lt_of_le hm hmn)
  let (e, K) := (K.build G (l.epsZero * normG) hm hmn u).diagonalize l.epsZero l.maxIter
  let events := e.events l.maxIter
  if e.converged then
    let i := argmax e.values hm
    let s := e.basis.col i
    ⟨some (e.values.get i, K.residual s hm), K.combine s u, K, events⟩
  else ⟨none, u, K, events⟩

/-- Restarts until one is accepted, at most `left` of them. -/
@[specialize] def restarts (l : Lanczos α) (G : Mat α n n) (normG tol : α) (hm : 0 < m)
    (hmn : m ≤ n) : (left number : Nat) → Vector α n → Krylov α n m → Array (Event α) →
    Extraction α n (Krylov α n m)
  | 0, _, v, K, events =>
    ⟨.error (.error .eigenConvergence), v, K, events.push (.restartsExhausted l.maxIter)⟩
  | left + 1, number, v, K, events =>
    let r := l.restart G normG hm hmn v K
    match r.ritz with
    | none => ⟨.error (.error .eigenConvergence), r.vec, r.work, events ++ r.events⟩
    | some (value, residual) =>
      let events := (events ++ r.events).push (.restart number m (.ok value) residual)
      if residual ≤ tol * normG then ⟨.ok value, r.vec, r.work, events⟩
      else restarts l G normG tol hm hmn left (number + 1) r.vec r.work events

omit [Scalar α] in
theorem basisDim_pos (l : Lanczos α) (h : 0 < n) : 0 < basisDim l.krylovDim n :=
  Nat.lt_min.2 ⟨l.krylovDim_pos, h⟩

theorem basisDim_le (krylovDim n : Nat) : basisDim krylovDim n ≤ n := Nat.min_le_right _ _

/-- The iteration for a matrix without rows, which has no eigenpair. It runs empty. To report a
restart is a fault, for a listener who hears it, and to accept a pair is one for all; with a
tolerance that accepts none, the iteration ends as any other that does not finish. -/
@[specialize] def topEigEmpty {ω : Type} (l : Lanczos α) (normG tol : α) (vec : Vector α n)
    (work : ω) : Extraction α n ω :=
  match normalize? l.epsZero vec with
  | .error f => ⟨.error (.fault f), vec, work, #[]⟩
  | .ok v =>
    if l.maxIter = 0 then ⟨.error (.error .eigenConvergence), v, work, #[.sweepsExhausted 0]⟩
    else
      let report : Event α := .restart 0 0 (.error .outOfRange) 0
      if 0 ≤ tol * normG then ⟨.error (.fault .outOfRange), v, work, #[report]⟩
      else ⟨.error (.error .eigenConvergence), v, work, #[report, .restartsExhausted l.maxIter]⟩

/-- The top eigenpair of a matrix whose norm is not taken for zero. -/
@[specialize] def topEigNonzero (l : Lanczos α) (G : Mat α n n) (normG tol : α) (vec : Vector α n)
    (K : Krylov α n (basisDim l.krylovDim n)) :
    Extraction α n (Krylov α n (basisDim l.krylovDim n)) :=
  if h : 0 < n then
    l.restarts G normG tol (l.basisDim_pos h) (basisDim_le _ _) (l.maxIter + 1) 0 vec K #[]
  else l.topEigEmpty normG tol vec K

/-- The eigenpair of a matrix whose norm is taken for zero, for which every unit vector is an
eigenvector of eigenvalue zero. -/
@[specialize] def topEigZero {ω : Type} (l : Lanczos α) (vec : Vector α n) (work : ω) :
    Extraction α n ω :=
  match normalize? l.epsZero vec with
  | .ok v => ⟨.ok 0, v, work, #[]⟩
  | .error f => ⟨.error (.fault f), vec, work, #[]⟩

/-- The top eigenpair of a matrix. -/
@[specialize] def topEig (l : Lanczos α) (G : Mat α n n) (tol : α) (vec : Vector α n)
    (K : Krylov α n (basisDim l.krylovDim n)) :
    Extraction α n (Krylov α n (basisDim l.krylovDim n)) :=
  let normG := G.norm
  if normG ≤ l.epsZero then l.topEigZero vec K else l.topEigNonzero G normG tol vec K

end Lanczos

end Spectrahedron
