import Spectrahedron.Proofs.Checked.Kernels

/-!
# The checked eigenvalue decomposition

The cyclic Jacobi method in place: a rotation goes through the indices of the matrix and rewrites,
for each of them, the entries in the rows and columns of its plane, and at last the four entries of
the plane itself. No entry is read after it has been rewritten, so what is left is the matrix that
has been rotated as a whole.

**Theorem (`eigen_eq`).** The method does not fail on slices of the right lengths, whatever they
hold, and leaves in them the decomposition of the matrix.
-/

namespace Spectrahedron

open Scalar

variable {α : Type} [Scalar α] {n : ℕ}

/-! ## Rotations in place -/

namespace Rotation

/-- Entries `(k, i)` and `(k, j)` replaced by their rotated combinations. -/
def turnColumns (q : Rotation α) (i j : Fin n) (Z : Mat α n n) (k : Fin n) : Mat α n n :=
  (Z.set k i (q.fst (Z.get k i) (Z.get k j))).set k j (q.snd (Z.get k i) (Z.get k j))

/-- The same on both sides of the diagonal, for `k` outside of the plane. -/
def turnBoth (q : Rotation α) (i j : Fin n) (X : Mat α n n) (k : Fin n) : Mat α n n :=
  if k ≠ i ∧ k ≠ j then
    (((X.set k i (q.fst (X.get k i) (X.get k j))).set i k (q.fst (X.get k i) (X.get k j))).set k j
      (q.snd (X.get k i) (X.get k j))).set j k (q.snd (X.get k i) (X.get k j))
  else X

/-- Both steps of the index `k`. -/
def turn (q : Rotation α) (i j : Fin n) (s : Diagonalization α n) (k : Fin n) :
    Diagonalization α n :=
  ⟨q.turnBoth i j s.mat k, q.turnColumns i j s.basis k⟩

theorem foldl_turnColumns (q : Rotation α) {i j : Fin n} (hij : i ≠ j) (Z : Mat α n n) :
    Fin.foldl n (q.turnColumns i j) Z = q.columns i j Z := by
  have hscan : ∀ r c, (Fin.foldl n (q.turnColumns i j) Z).get r c
      = if r.val < n then (q.columns i j Z).get r c else Z.get r c := by
    refine foldl_invariant (fun k (Y : Mat α n n) => ∀ r c, Y.get r c =
        if r.val < k then (q.columns i j Z).get r c else Z.get r c)
      (fun r c => (if_neg (Nat.not_lt_zero _)).symm) fun k Y hY r c => ?_
    simp only [turnColumns, Mat.get_set, hY, Nat.lt_irrefl, if_false]
    rcases eq_or_ne k r with rfl | hkr
    · simp only [columns, Mat.get_ofFn, true_and, Nat.lt_irrefl, if_false, Nat.lt_succ_self,
        if_true]
      grind
    · simp only [hkr, false_and, if_false, lt_succ_of_ne hkr]
  exact Mat.ext_get fun r c => (hscan r c).trans (if_pos r.isLt)

/-- The entries that the rotation has rewritten before index `k`. -/
def Turned (i j r c : Fin n) (k : ℕ) : Prop :=
  (r = i ∨ r = j) ∧ c ≠ i ∧ c ≠ j ∧ c.val < k ∨ (c = i ∨ c = j) ∧ r ≠ i ∧ r ≠ j ∧ r.val < k

instance (i j r c : Fin n) (k : ℕ) : Decidable (Turned i j r c k) :=
  inferInstanceAs (Decidable (_ ∨ _))

theorem turned_succ (i j r c k : Fin n) :
    Turned i j r c (k + 1) ↔ Turned i j r c k ∨
      (r = i ∨ r = j) ∧ c ≠ i ∧ c ≠ j ∧ c = k ∨ (c = i ∨ c = j) ∧ r ≠ i ∧ r ≠ j ∧ r = k := by
  simp only [Turned, Nat.lt_succ_iff_lt_or_eq, Fin.val_inj]
  grind

theorem get_foldl_turnBoth (q : Rotation α) {i j : Fin n} (hij : i ≠ j) (X : Mat α n n)
    (r c : Fin n) :
    (Fin.foldl n (q.turnBoth i j) X).get r c =
      if Turned i j r c n then (q.conjugate i j X).get r c else X.get r c := by
  revert r c
  refine foldl_invariant (fun k (Y : Mat α n n) => ∀ r c, Y.get r c =
    if Turned i j r c k then (q.conjugate i j X).get r c else X.get r c) ?_ ?_
  · intro r c
    simp [Turned]
  · intro k Y hY r c
    unfold turnBoth
    split
    · rename_i hk
      -- Both entries that the step reads are still those of `X`.
      have hki : Y.get k i = X.get k i := by
        rw [hY, if_neg]
        simp [Turned, hk]
      have hkj : Y.get k j = X.get k j := by
        rw [hY, if_neg]
        simp [Turned, hk]
      simp only [Mat.get_set, hki, hkj, hY, turned_succ]
      simp only [conjugate, Mat.get_ofFn, Turned]
      grind
    · rw [hY]
      simp only [turned_succ]
      grind

/-- The matrix and the basis do not read each other. -/
theorem foldl_turn (q : Rotation α) {i j : Fin n} (hij : i ≠ j) (s : Diagonalization α n) :
    Fin.foldl n (q.turn i j) s
      = ⟨Fin.foldl n (q.turnBoth i j) s.mat, q.columns i j s.basis⟩ := by
  have hmat : (Fin.foldl n (q.turn i j) s).mat = Fin.foldl n (q.turnBoth i j) s.mat :=
    foldl_related (fun _ (t : Diagonalization α n) X => t.mat = X) rfl
      fun k t X h => congrArg (q.turnBoth i j · k) h
  have hbasis : (Fin.foldl n (q.turn i j) s).basis = Fin.foldl n (q.turnColumns i j) s.basis :=
    foldl_related (fun _ (t : Diagonalization α n) Z => t.basis = Z) rfl
      fun k t Z h => congrArg (q.turnColumns i j · k) h
  rw [← q.foldl_turnColumns hij, ← hmat, ← hbasis]

/-- The four entries of the plane are written last. -/
theorem conjugate_eq_set (q : Rotation α) {i j : Fin n} (hij : i ≠ j) (X : Mat α n n) :
    ((((Fin.foldl n (q.turnBoth i j) X).set i i (q.cos * q.cos * X.get i i
      + q.sin * q.sin * X.get j j - two * q.cos * q.sin * X.get i j)).set j j
      (q.sin * q.sin * X.get i i + q.cos * q.cos * X.get j j
        + two * q.cos * q.sin * X.get i j)).set i j 0).set j i 0 = q.conjugate i j X := by
  refine Mat.ext_get fun r c => ?_
  simp only [Mat.get_set, get_foldl_turnBoth q hij, Turned, conjugate, Mat.get_ofFn, r.isLt, c.isLt,
    and_true]
  grind

end Rotation

namespace Checked

/-! ## The decomposition in slices -/

/-- The identity matrix, written over a slice. -/
def setIdentity (n : ℕ) (z : Array α) : Except Fault (Array α) :=
  loop 0 n (fun i z => setEntry n n z i i 1) (z.map fun _ => 0)

/-- A matrix on its way to diagonal form and the basis in which it is written, in slices. -/
structure Diagonalizing (α : Type) where
  mat : Array α
  basis : Array α

/-- The step of a rotation that belongs to the index `k`, in the matrix. -/
def turnBoth (n : ℕ) (q : Rotation α) (i j k : ℕ) (x : Array α) : Except Fault (Array α) :=
  if k ≠ i ∧ k ≠ j then do
    let a ← entry n n x k i
    let b ← entry n n x k j
    let x ← setEntry n n x k i (q.fst a b)
    let x ← setEntry n n x i k (q.fst a b)
    let x ← setEntry n n x k j (q.snd a b)
    setEntry n n x j k (q.snd a b)
  else .ok x

/-- The step of a rotation that belongs to the index `k`, in the basis. -/
def turnColumns (n : ℕ) (q : Rotation α) (i j k : ℕ) (z : Array α) : Except Fault (Array α) := do
  let a ← entry n n z k i
  let b ← entry n n z k j
  let z ← setEntry n n z k i (q.fst a b)
  setEntry n n z k j (q.snd a b)

/-- The visit of the pair of `i` and `j`: a rotation, unless the entry counts as zero. -/
def visit (n : ℕ) (tol sqNorm : α) (i j : ℕ) (s : Diagonalizing α × Bool) :
    Except Fault (Diagonalizing α × Bool) := do
  let a ← entry n n s.1.mat i i
  let b ← entry n n s.1.mat j j
  let d ← entry n n s.1.mat i j
  if tol * abs (a * b) < d * d ∧ tol * sqNorm < d * d then
    let q := Rotation.annihilating a b d
    let t ← loop 0 n (fun k t => do
      return ⟨← turnBoth n q i j k t.mat, ← turnColumns n q i j k t.basis⟩) s.1
    let mat ← setEntry n n t.mat i i
      (q.cos * q.cos * a + q.sin * q.sin * b - two * q.cos * q.sin * d)
    let mat ← setEntry n n mat j j
      (q.sin * q.sin * a + q.cos * q.cos * b + two * q.cos * q.sin * d)
    let mat ← setEntry n n mat i j 0
    let mat ← setEntry n n mat j i 0
    return (⟨mat, t.basis⟩, true)
  else return s

/-- One sweep. -/
def sweep (n : ℕ) (tol sqNorm : α) (s : Diagonalizing α) : Except Fault (Diagonalizing α × Bool) :=
  loop 0 n (fun i => loop (i + 1) n (visit n tol sqNorm i)) (s, false)

/-- At most the given number of sweeps. -/
def sweeps (n : ℕ) (tol sqNorm : α) :
    ℕ → Diagonalizing α → Except Fault (Bool × Diagonalizing α)
  | 0, s => .ok (false, s)
  | k + 1, s => do
    let (s, rotated) ← sweep n tol sqNorm s
    if rotated then sweeps n tol sqNorm k s else return (true, s)

/-- What a decomposition leaves in its slices. -/
structure EigenSlices (α : Type) where
  converged : Bool
  mat : Array α
  values : Array α
  vectors : Array α

/-- The eigenvalue decomposition of an `n` by `n` matrix in a slice. The eigenvectors are written
over whatever their slice holds, and so are the eigenvalues when the method converges. -/
def eigen (n : ℕ) (mat : Array α) (epsZero : α) (maxSweeps : ℕ) (values vectors : Array α) :
    Except Fault (EigenSlices α) := do
  require (mat.size = n * n)
  require (values.size = n)
  require (vectors.size = n * n)
  let vectors ← setIdentity n vectors
  let (converged, s) ←
    sweeps n (epsZero * epsZero) (sumSquares mat.toVector) maxSweeps ⟨mat, vectors⟩
  if converged then
    let values ← loop 0 n (fun i values => do write values i (← entry n n s.mat i i)) values
    return ⟨true, s.mat, values, s.basis⟩
  else return ⟨false, s.mat, values, s.basis⟩

/-! ## Its result -/

theorem foldl_set_one (Z : Mat α n n) :
    Fin.foldl n (fun Y i => Y.set i i 1) (Z.map fun _ => 0) = Mat.identity α n := by
  have hscan : ∀ r c, (Fin.foldl n (fun (Y : Mat α n n) i => Y.set i i 1)
      (Z.map fun _ => 0)).get r c = if r = c ∧ r.val < n then 1 else 0 := by
    refine foldl_invariant (fun k (Y : Mat α n n) => ∀ r c, Y.get r c =
      if r = c ∧ r.val < k then 1 else 0) (fun r c => by simp) fun k Y hY r c => ?_
    rw [Mat.get_set, hY]
    grind
  refine Mat.ext_get fun r c => ?_
  rw [hscan r c, Mat.get_identity]
  exact if_congr (and_iff_left r.isLt) rfl rfl

theorem setIdentity_eq (Z : Mat α n n) :
    setIdentity n Z.toArray = .ok (Mat.identity α n).toArray := by
  rw [← foldl_set_one Z]
  exact loop_finRange Mat.toArray (fun Y i => setEntry_mat Y i i 1) (Z.map fun _ => 0)

theorem turnBoth_eq (q : Rotation α) (i j k : Fin n) (X : Mat α n n) :
    turnBoth n q i j k X.toArray = .ok (q.turnBoth i j X k).toArray := by
  unfold turnBoth Rotation.turnBoth
  by_cases h : k ≠ i ∧ k ≠ j
  · rw [if_pos h, if_pos (h.imp Fin.val_ne_of_ne Fin.val_ne_of_ne)]
    simp only [entry_mat, setEntry_mat, ok_bind]
  · rw [if_neg h, if_neg (by simpa [Fin.val_inj] using h)]

theorem turnColumns_eq (q : Rotation α) (i j k : Fin n) (Z : Mat α n n) :
    turnColumns n q i j k Z.toArray = .ok (q.turnColumns i j Z k).toArray := by
  unfold turnColumns Rotation.turnColumns
  simp only [entry_mat, setEntry_mat, ok_bind]

/-- The slices of a state. -/
def Diagonalizing.of (s : Diagonalization α n) : Diagonalizing α :=
  ⟨s.mat.toArray, s.basis.toArray⟩

theorem visit_eq (tol sqNorm : α) {i j : Fin n} (hij : i ≠ j) (s : Diagonalization α n × Bool) :
    visit n tol sqNorm i j (.of s.1, s.2)
      = .ok (.of (Diagonalization.visit tol sqNorm s (i, j)).1,
          (Diagonalization.visit tol sqNorm s (i, j)).2) := by
  have hloop : ∀ q : Rotation α, loop 0 n (fun k (t : Diagonalizing α) => do
      return ⟨← turnBoth n q i j k t.mat, ← turnColumns n q i j k t.basis⟩) (.of s.1)
        = .ok (.of ⟨Fin.foldl n (q.turnBoth i j) s.1.mat, q.columns i j s.1.basis⟩) := by
    intro q
    rw [← q.foldl_turn hij]
    refine loop_finRange Diagonalizing.of (fun t k => ?_) s.1
    simp only [Diagonalizing.of, Rotation.turn, turnBoth_eq, turnColumns_eq, ok_bind, pure_eq_ok]
  have hread : ∀ r c : Fin n, entry n n (Diagonalizing.of s.1).mat r c = .ok (s.1.mat.get r c) :=
    fun r c => entry_mat s.1.mat r c
  unfold visit Diagonalization.visit
  simp only [hread, ok_bind]
  by_cases hsig : Diagonalization.significant tol sqNorm s.1.mat i j
  · rw [if_pos (show _ ∧ _ from hsig), if_pos hsig, hloop]
    simp only [Diagonalizing.of, setEntry_mat, ok_bind, pure_eq_ok]
    rw [Rotation.conjugate_eq_set _ hij]
    rfl
  · rw [if_neg (show ¬(_ ∧ _) from hsig), if_neg hsig]
    rfl

theorem sweep_eq (tol sqNorm : α) (s : Diagonalization α n) :
    sweep n tol sqNorm (.of s)
      = .ok (.of (Diagonalization.sweep tol sqNorm s).1,
          (Diagonalization.sweep tol sqNorm s).2) := by
  unfold Diagonalization.sweep Diagonalization.pairs
  rw [List.foldl_flatMap]
  refine loop_map (fun s : Diagonalization α n × Bool => (Diagonalizing.of s.1, s.2))
    (map_val_finRange n) (fun s i _ => ?_) (s, false)
  rw [List.foldl_map]
  refine loop_map (fun s : Diagonalization α n × Bool => (Diagonalizing.of s.1, s.2))
    (map_val_filter_lt i) (fun s j hj => ?_) s
  exact visit_eq tol sqNorm (of_decide_eq_true (List.mem_filter.1 hj).2).ne s

theorem sweeps_eq (tol sqNorm : α) (k : ℕ) (s : Diagonalization α n) :
    sweeps n tol sqNorm k (.of s)
      = .ok ((Diagonalization.sweeps tol sqNorm k s).1,
          .of (Diagonalization.sweeps tol sqNorm k s).2) := by
  induction k generalizing s with
  | zero => rfl
  | succ k ih =>
    rw [sweeps, sweep_eq, ok_bind]
    rcases h : Diagonalization.sweep tol sqNorm s with ⟨t, _ | _⟩
    · simp [Diagonalization.sweeps, h]
    · simp [Diagonalization.sweeps, h, ih]

/-- The slices that a decomposition leaves. Eigenvalues are written only when it has converged. -/
def EigenSlices.of (e : EigenDecomposition α n) (values : Vector α n) : EigenSlices α :=
  ⟨e.converged, e.mat.toArray, (if e.converged then e.values else values).toArray,
    e.basis.toArray⟩

theorem eigen_eq (A : Mat α n n) (epsZero : α) (maxSweeps : ℕ) (values : Vector α n)
    (vectors : Mat α n n) :
    eigen n A.toArray epsZero maxSweeps values.toArray vectors.toArray
      = .ok (.of (A.eigen epsZero maxSweeps) values) := by
  have hsweeps : sweeps n (epsZero * epsZero) (sumSquares A.toArray.toVector) maxSweeps
      ⟨A.toArray, (Mat.identity α n).toArray⟩
        = .ok ((A.eigen epsZero maxSweeps).converged,
            .of (A.eigen epsZero maxSweeps).toDiagonalization) := by
    rw [show sumSquares A.toArray.toVector = _ from Slice.sumSquares_toArray A.data]
    exact sweeps_eq _ _ maxSweeps (Diagonalization.start A)
  have hvalues : loop 0 n (fun i values => do
      write values i (← entry n n (A.eigen epsZero maxSweeps).mat.toArray i i)) values.toArray
        = .ok (A.eigen epsZero maxSweeps).values.toArray :=
    loop_setEntry (f := fun i _ => (A.eigen epsZero maxSweeps).mat.get i i)
      (fun v i => by rw [entry_mat, ok_bind, write_vector]) values
  unfold eigen
  rw [require_of A.size_toArray, require_of values.size_toArray, require_of vectors.size_toArray,
    setIdentity_eq]
  simp only [ok_bind, hsweeps, Diagonalizing.of, hvalues, EigenSlices.of]
  cases (A.eigen epsZero maxSweeps).converged <;> rfl

end Checked

end Spectrahedron
