import Spectrahedron.Proofs.Checked.Access
import Spectrahedron.Kernel.Slice

/-!
# Checked kernels

The kernels as loops over slices, in which every entry is read and written through a check. When the
lengths of the slices are those of a vector or a matrix, every index of the loops is in range, and
what is left in the slices is the result of the typed kernel.

**Theorem (`transform_eq`, `addRankOne_eq`, `traceProduct_eq`).** The loops do not fail and compute
the kernels of the same name.
-/

namespace Spectrahedron

variable {α : Type} {m n : ℕ}

/-! ## Entries written in place -/

/-- Step `j` of a loop does not change whether another index has been passed. -/
theorem lt_succ_of_ne {j i : Fin n} (h : j ≠ i) : i.val < j.val + 1 ↔ i.val < j.val := by
  have hval := Fin.val_ne_of_ne h
  omega

/-- Each entry is written once, from its own value. -/
theorem Vec.foldl_setEntry (f : Fin n → α → α) (x : Vector α n) :
    Fin.foldl n (fun v i => Vec.setEntry v i (f i (v.get i))) x
      = Vector.ofFn fun i => f i (x.get i) := by
  have hscan : ∀ i : Fin n, (Fin.foldl n (fun v i => Vec.setEntry v i (f i (v.get i))) x).get i
      = if i.val < n then f i (x.get i) else x.get i := by
    refine foldl_invariant
      (fun k (v : Vector α n) => ∀ i, v.get i = if i.val < k then f i (x.get i) else x.get i)
      (fun i => (if_neg (Nat.not_lt_zero _)).symm) fun j v hv i => ?_
    rw [Vec.get_setEntry]
    rcases eq_or_ne j i with rfl | hne
    · rw [if_pos rfl, hv j, if_neg (Nat.lt_irrefl _), if_pos (Nat.lt_succ_self _)]
    · rw [if_neg hne, hv i]
      exact if_congr (lt_succ_of_ne hne).symm rfl rfl
  refine Vec.ext_get fun i => ?_
  rw [hscan i, if_pos i.isLt, Vec.get_ofFn]

namespace Mat

theorem foldl_set_column (f : Fin m → α → α) (c : Fin n) (A : Mat α m n) :
    Fin.foldl m (fun B r => B.set r c (f r (B.get r c))) A
      = ofFn fun r k => if k = c then f r (A.get r c) else A.get r k := by
  have hscan : ∀ i j, (Fin.foldl m (fun B r => B.set r c (f r (B.get r c))) A).get i j
      = if j = c ∧ i.val < m then f i (A.get i c) else A.get i j := by
    refine foldl_invariant (fun k (B : Mat α m n) => ∀ i j, B.get i j =
        if j = c ∧ i.val < k then f i (A.get i c) else A.get i j)
      (fun i j => (if_neg fun h => Nat.not_lt_zero _ h.2).symm) fun r B hB i j => ?_
    rw [get_set, hB, hB]
    rcases eq_or_ne j c with rfl | hj
    · rcases eq_or_ne r i with rfl | hr
      · simp
      · simp [hr, lt_succ_of_ne hr]
    · simp [hj, hj.symm]
  refine ext_get fun i j => ?_
  rw [hscan i j, get_ofFn]
  exact if_congr (and_iff_left i.isLt) rfl rfl

/-- Each entry is written once, column after column, from its own value. -/
theorem foldl_set (f : Fin m → Fin n → α → α) (A : Mat α m n) :
    Fin.foldl n (fun B c => Fin.foldl m (fun B r => B.set r c (f r c (B.get r c))) B) A
      = ofFn fun r c => f r c (A.get r c) := by
  simp only [foldl_set_column]
  have hscan : ∀ i j, (Fin.foldl n (fun B c => ofFn fun r k =>
      if k = c then f r c (B.get r c) else B.get r k) A).get i j
        = if j.val < n then f i j (A.get i j) else A.get i j := by
    refine foldl_invariant
      (fun k (B : Mat α m n) => ∀ i j, B.get i j =
        if j.val < k then f i j (A.get i j) else A.get i j)
      (fun i j => (if_neg (Nat.not_lt_zero _)).symm) fun c B hB i j => ?_
    rw [get_ofFn, hB, hB]
    rcases eq_or_ne j c with rfl | hne
    · rw [if_pos rfl, if_neg (Nat.lt_irrefl _), if_pos (Nat.lt_succ_self _)]
    · rw [if_neg hne]
      exact if_congr (lt_succ_of_ne hne.symm).symm rfl rfl
  refine ext_get fun i j => ?_
  rw [hscan i j, if_pos j.isLt, get_ofFn]

end Mat

/-! ## Kernels on slices that hold vectors -/

namespace Slice

theorem toVector?_toArray (x : Vector α n) : toVector? n x.toArray = .ok x :=
  dif_pos x.size_toArray

variable [Scalar α]

theorem sumSquares_toArray (x : Vector α n) : sumSquares x.toArray.toVector = sumSquares x := by
  obtain ⟨a, rfl⟩ := x
  rfl

theorem norm_toArray (x : Vector α n) : norm x.toArray = Spectrahedron.norm x :=
  congrArg Scalar.sqrt (sumSquares_toArray x)

theorem scale_toArray (a : α) (x : Vector α n) :
    scale a x.toArray = (Spectrahedron.scale a x).toArray := by
  obtain ⟨_, rfl⟩ := x
  rfl

theorem scale_mat (a : α) (A : Mat α m n) : scale a A.toArray = (A.scale a).toArray :=
  scale_toArray a A.data

theorem inner_toArray (x y : Vector α n) :
    inner x.toArray y.toArray = .ok (Spectrahedron.inner x y) := by
  obtain ⟨a, rfl⟩ := x
  unfold inner
  rw [toVector?_toArray]
  rfl

theorem addScaled_toArray (a : α) (x y : Vector α n) :
    addScaled a x.toArray y.toArray = .ok (Spectrahedron.addScaled a x y).toArray := by
  obtain ⟨_, rfl⟩ := x
  unfold addScaled
  rw [toVector?_toArray]
  rfl

omit [Scalar α] in
theorem copy_toArray (x y : Vector α n) : copy x.toArray y.toArray = .ok x.toArray :=
  if_pos (by rw [Vector.size_toArray, Vector.size_toArray])

end Slice

namespace Checked

/-! ## Loops that write every entry -/

/-- A loop that writes each entry of a vector from its own value. -/
theorem loop_setEntry {step : ℕ → Array α → Except Fault (Array α)} {f : Fin n → α → α}
    (hstep : ∀ (v : Vector α n) (i : Fin n),
      step i v.toArray = .ok (Vec.setEntry v i (f i (v.get i))).toArray) (x : Vector α n) :
    loop 0 n step x.toArray = .ok (Vector.ofFn fun i => f i (x.get i)).toArray := by
  rw [loop_finRange Vector.toArray hstep, Vec.foldl_setEntry]

/-- A loop that writes each entry of a matrix from its own value, column after column. -/
theorem loop_set {step : ℕ → ℕ → Array α → Except Fault (Array α)} {f : Fin m → Fin n → α → α}
    (hstep : ∀ (B : Mat α m n) (r : Fin m) (c : Fin n),
      step c r B.toArray = .ok (B.set r c (f r c (B.get r c))).toArray) (A : Mat α m n) :
    loop 0 n (fun c => loop 0 m (step c)) A.toArray
      = .ok (Mat.ofFn fun r c => f r c (A.get r c)).toArray := by
  rw [loop_finRange Mat.toArray
    (fun B c => loop_finRange Mat.toArray (fun B r => hstep B r c) B), Mat.foldl_set]

/-! ## Kernels -/

variable [Scalar α]

/-- The vector `a A x + b y`, written over `y`. -/
def transform (m n : ℕ) (a : α) (mat x : Array α) (b : α) (y : Array α) :
    Except Fault (Array α) := do
  require (mat.size = m * n)
  require (x.size = n)
  require (y.size = m)
  loop 0 y.size (fun r y => do
    let s ← loop 0 x.size (fun c s => do
      return s + (← entry m n mat r c) * (← read x c)) 0
    write y r (a * s + b * (← read y r))) y

/-- The matrix `a x xᵀ + A`, written over `A`. -/
def addRankOne (n : ℕ) (a : α) (x mat : Array α) : Except Fault (Array α) := do
  require (x.size = n)
  require (mat.size = n * n)
  loop 0 n (fun c => loop 0 n fun r mat => do
    let e := a * (← read x r) * (← read x c) + (← entry n n mat r c)
    setEntry n n mat r c e) mat

/-- The trace of the product of two `n` by `n` matrices. -/
def traceProduct (n : ℕ) (a b : Array α) : Except Fault α := do
  require (a.size = n * n)
  require (b.size = n * n)
  loop 0 n (fun c => loop 0 n fun r s => do
    return s + (← entry n n a r c) * (← entry n n b c r)) 0

/-- A loop that writes `a (A x) + b y` over `y`, where the entries of `A` are looked up. -/
theorem loop_product {look : ℕ → ℕ → Except Fault α} {f : Fin m → Fin n → α}
    (hlook : ∀ (r : Fin m) (c : Fin n), look r c = .ok (f r c)) (a : α) (x : Vector α n) (b : α)
    (y : Vector α m) :
    loop 0 m (fun r y => do
      let s ← loop 0 n (fun c s => do return s + (← look r c) * (← read x.toArray c)) 0
      write y r (a * s + b * (← read y r))) y.toArray
      = .ok (Vector.ofFn fun r => a * (sum fun c => f r c * x.get c) + b * y.get r).toArray := by
  have hsum : ∀ r : Fin m, loop 0 n (fun c s => do
      return s + (← look r c) * (← read x.toArray c)) 0
        = .ok (sum fun c => f r c * x.get c) := fun r =>
    loop_finRange id (fun s c => by rw [hlook, read_vector]; rfl) 0
  refine loop_setEntry (f := fun r e => a * (sum fun c => f r c * x.get c) + b * e)
    (fun v r => ?_) y
  rw [hsum, read_vector, ← write_vector]
  rfl

theorem transform_eq (a : α) (A : Mat α m n) (x : Vector α n) (b : α) (y : Vector α m) :
    transform m n a A.toArray x.toArray b y.toArray = .ok (A.transform a x b y).toArray := by
  unfold transform
  rw [require_of A.size_toArray, require_of x.size_toArray, require_of y.size_toArray,
    Vector.size_toArray, Vector.size_toArray]
  exact loop_product (entry_mat A) a x b y

theorem addRankOne_eq (a : α) (x : Vector α n) (A : Mat α n n) :
    addRankOne n a x.toArray A.toArray = .ok (A.addRankOne a x).toArray := by
  unfold addRankOne
  rw [require_of x.size_toArray, require_of A.size_toArray]
  refine loop_set (f := fun r c e => a * x.get r * x.get c + e) (fun B r c => ?_) A
  rw [read_vector, read_vector, entry_mat, ← setEntry_mat]
  rfl

theorem traceProduct_eq (A B : Mat α n n) :
    traceProduct n A.toArray B.toArray = .ok (A.traceProduct B) := by
  unfold traceProduct
  rw [require_of A.size_toArray, require_of B.size_toArray]
  refine loop_finRange id (fun s c => loop_finRange id (fun s r => ?_) s) 0
  rw [entry_mat, entry_mat]
  rfl

end Checked

end Spectrahedron
