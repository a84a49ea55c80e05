import Spectrahedron.Jacobi

/-!
# Square matrices of any dimension

A square matrix that carries its dimension, with the operations that fill it. Indices are natural
numbers and are checked: an index outside of the matrix is a fault, and never reads another entry.

**Theorem (`get?_set?`, `get_fill`, `get_fillRows`).** Setting an entry changes that entry and no
other; filling by calls gives entry `(r, c)` the value of call number `c * dim + r`; filling from
a list of rows gives it the element number `r * dim + c` of the list, if there is one.
-/

namespace Spectrahedron

/-- A square matrix with its dimension. -/
structure SquareMatrix (α : Type) where
  dim : Nat
  entries : Mat α dim dim

namespace SquareMatrix

variable {α : Type}

/-! ## Entries -/

/-- The entry in row `r` and column `c`. -/
def get? (A : SquareMatrix α) (r c : Nat) : Except Fault α :=
  if h : r < A.dim ∧ c < A.dim then .ok (A.entries.get ⟨r, h.1⟩ ⟨c, h.2⟩) else .error .outOfRange

/-- The matrix with the entry in row `r` and column `c` replaced. -/
def set? (A : SquareMatrix α) (r c : Nat) (a : α) : Except Fault (SquareMatrix α) :=
  if h : r < A.dim ∧ c < A.dim then .ok ⟨A.dim, A.entries.set ⟨r, h.1⟩ ⟨c, h.2⟩ a⟩
  else .error .outOfRange

/-- The numbers of rows and columns. -/
def size (A : SquareMatrix α) : Nat × Nat := (A.dim, A.dim)

/-- The entries column after column. -/
def toArray (A : SquareMatrix α) : Array α := A.entries.toArray

/-- The matrix whose entries, column after column, are the elements of an array. -/
def ofColumns (n : Nat) (data : Array α) : Except Fault (SquareMatrix α) := do
  return ⟨n, ← Mat.ofArray? data⟩

/-! ## Filling -/

/-- Every entry replaced by the value of a call. The calls go down the columns, the first column
first, and are told their number, the row and the column. -/
def fill (A : SquareMatrix α) (f : (call : Nat) → (r c : Fin A.dim) → α) : SquareMatrix α :=
  ⟨A.dim, Mat.ofFn fun r c => f (c.val * A.dim + r.val) r c⟩

/-- Every entry replaced by the value of a call, for calls whose values are listed. There must be
enough of them. -/
def fillCalls (A : SquareMatrix α) (values : Array α) : Except Fault (SquareMatrix α) :=
  if h : A.dim * A.dim ≤ values.size then
    .ok ⟨A.dim, Mat.ofFn fun r c =>
      values.toVector.get ⟨c.val * A.dim + r.val, Nat.lt_of_lt_of_le (Mat.index_lt r c) h⟩⟩
  else .error .outOfRange

/-- The entries replaced from a list, row after row, until the list ends. -/
def fillRows (A : SquareMatrix α) (data : Array α) : SquareMatrix α :=
  ⟨A.dim, Mat.ofFn fun r c => (data[r.val * A.dim + c.val]?).getD (A.entries.get r c)⟩

theorem get?_eq (A : SquareMatrix α) (r c : Fin A.dim) : A.get? r c = .ok (A.entries.get r c) := by
  simp [get?]

theorem get?_eq_error (A : SquareMatrix α) {r c : Nat} (h : ¬(r < A.dim ∧ c < A.dim)) :
    A.get? r c = .error .outOfRange := dif_neg h

theorem get?_set? {A B : SquareMatrix α} {r c : Nat} {a : α} (h : A.set? r c a = .ok B)
    (r' c' : Nat) : B.get? r' c' = if r = r' ∧ c = c' then .ok a else A.get? r' c' := by
  unfold set? at h
  split at h
  · rename_i hrc
    cases h
    unfold get?
    dsimp only
    by_cases hb : r' < A.dim ∧ c' < A.dim
    · rw [dif_pos hb, dif_pos hb, Mat.get_set]
      simp only [Fin.mk.injEq]
      split <;> rfl
    · rw [dif_neg hb, dif_neg hb]
      split
      · rename_i he
        exact absurd (by rw [← he.1, ← he.2]; exact hrc) hb
      · rfl
  · cases h

@[simp] theorem get_fill (A : SquareMatrix α) (f : Nat → Fin A.dim → Fin A.dim → α)
    (r c : Fin A.dim) :
    Mat.get (A.fill f).entries r c = f (c.val * A.dim + r.val) r c := Mat.get_ofFn _ r c

@[simp] theorem get_fillRows (A : SquareMatrix α) (data : Array α) (r c : Fin A.dim) :
    Mat.get (A.fillRows data).entries r c
      = (data[r.val * A.dim + c.val]?).getD (A.entries.get r c) := Mat.get_ofFn _ r c

@[simp] theorem size_toArray (A : SquareMatrix α) : A.toArray.size = A.dim * A.dim :=
  A.entries.size_toArray

/-! ## Arithmetic -/

variable [Scalar α]

/-- The zero matrix. -/
def zero (α : Type) [Scalar α] (n : Nat) : SquareMatrix α := ⟨n, Mat.ofFn fun _ _ => 0⟩

/-- The identity matrix. -/
def identity (α : Type) [Scalar α] (n : Nat) : SquareMatrix α := ⟨n, Mat.identity α n⟩

/-- The multiple `a A`. -/
def scale (a : α) (A : SquareMatrix α) : SquareMatrix α := ⟨A.dim, A.entries.scale a⟩

/-- The trace. -/
def trace (A : SquareMatrix α) : α := A.entries.trace

/-- The trace of the product of two matrices of the same dimension. -/
def traceProduct (A B : SquareMatrix α) : Except Fault α :=
  if h : B.dim = A.dim then .ok (A.entries.traceProduct (h ▸ B.entries))
  else .error .lengthMismatch

/-- The greatest number of sweeps with which eigenvalues are computed. -/
def eigenSweeps : Nat := 300

/-- The eigenvalue decomposition. -/
def eigen (A : SquareMatrix α) (epsZero : α) : EigenDecomposition α A.dim :=
  A.entries.eigen epsZero eigenSweeps

/-- The eigenvalues of a symmetric matrix, if the decomposition converges. -/
def eigenvalues (A : SquareMatrix α) (epsZero : α) : Option (Vector α A.dim) :=
  let e := A.eigen epsZero
  if e.converged then some e.values else none

end SquareMatrix

end Spectrahedron
