import Spectrahedron.Proofs.Checked.Decomposition

/-!
# The checked Krylov basis

The basis is one slice, which grows by a column in each step: the slice is split behind the columns
that are done, and the next column is the front of what is left. A step writes the entries of the
tridiagonal matrix one by one, a coupling perhaps twice.

**Theorem (`extend_eq`, `build_eq`).** No step splits a slice behind its end or reads beside it, and
what the steps leave in the slices is the typed state.
-/

namespace Spectrahedron

open Scalar

variable {α : Type} {n m : ℕ}

theorem Vec.setEntry_setEntry (x : Vector α n) (i : Fin n) (a b : α) :
    setEntry (setEntry x i a) i b = setEntry x i b := by
  refine ext_get fun k => ?_
  simp only [get_setEntry]
  split <;> rfl

/-! ## Columns of a slice -/

namespace Mat

theorem col_end_le (c : Fin m) : c.val * n + n ≤ n * m := by
  have h := Nat.mul_le_mul_right n (Nat.succ_le_of_lt c.isLt)
  rwa [Nat.succ_mul, Nat.mul_comm m n] at h

/-- A column is a part of the slice. -/
theorem toArray_col (B : Mat α n m) (c : Fin m) :
    (B.col c).toArray = B.toArray.extract (c * n) (c * n + n) := by
  have hend := col_end_le (n := n) c
  refine Array.ext ?_ fun i hi hi' => ?_
  · simp only [Vector.size_toArray, Array.size_extract, size_toArray]
    omega
  · rw [Vector.size_toArray] at hi
    rw [Array.getElem_extract, Vector.getElem_toArray]
    exact get_col B ⟨i, hi⟩ c

theorem col_end_le_col {c c' : Fin m} (h : c < c') : c.val * n + n ≤ c'.val * n := by
  rw [← Nat.succ_mul]
  exact Nat.mul_le_mul_right n h

/-- A slice holds a matrix when every entry is in its place. -/
theorem toArray_eq_of_getElem? {A : Mat α n m} {a : Array α} (hsize : a.size = n * m)
    (h : ∀ r c, a[c.val * n + r.val]? = some (A.get r c)) : A.toArray = a := by
  rw [← toArray_ofArray a hsize]
  refine congrArg toArray (ext_get fun r c => ?_)
  have hentry := (getElem_toArray (ofArray a hsize) r c).symm.trans (h r c)
  exact (Option.some.inj hentry).symm

/-- A column is written between the columns before it and those behind it. -/
theorem toArray_setCol (B : Mat α n m) (c : Fin m) (v : Vector α n) :
    (B.setCol c v).toArray = B.toArray.extract 0 (c * n) ++ v.toArray
      ++ B.toArray.extract (c * n + n) (n * m) := by
  have hend := col_end_le (n := n) c
  refine toArray_eq_of_getElem? ?_ fun r c' => ?_
  · simp only [Array.size_append, Array.size_extract, Vector.size_toArray, size_toArray]
    omega
  have hr := r.isLt
  have hindex := index_lt r c'
  have hentry := B.getElem_toArray r c'
  rw [get_setCol, Array.getElem?_append, Array.getElem?_append, Array.getElem?_extract,
    Array.getElem?_extract]
  simp only [Array.size_append, Array.size_extract, Vector.size_toArray, size_toArray]
  rcases lt_trichotomy c' c with hlt | rfl | hlt
  · have hbefore := col_end_le_col (n := n) hlt
    rw [if_pos (by omega), if_pos (by omega), if_pos (by omega), if_neg hlt.ne, Nat.zero_add]
    exact hentry
  · have hrow : c'.val * n + r.val - (min (c'.val * n) (n * m) - 0) = r.val := by omega
    rw [if_pos (by omega), if_neg (by omega), if_pos rfl, hrow]
    exact Vector.getElem?_toArray.trans (Vector.getElem?_eq_getElem hr)
  · have hbehind := col_end_le_col (n := n) hlt
    have hplace : c.val * n + n + (c'.val * n + r.val - (min (c.val * n) (n * m) - 0 + n))
        = c'.val * n + r.val := by omega
    rw [if_neg (by omega), if_pos (by omega), if_neg hlt.ne', hplace]
    exact hentry

/-- The first `count` columns. -/
def front (B : Mat α n m) (count : ℕ) : Array α := B.toArray.extract 0 (count * n)

theorem front_end_le {count : ℕ} (h : count ≤ m) : count * n ≤ n * m := by
  rw [Nat.mul_comm n m]
  exact Nat.mul_le_mul_right n h

theorem size_front (B : Mat α n m) {count : ℕ} (h : count ≤ m) :
    (B.front count).size = count * n := by
  have hend := front_end_le (n := n) h
  simp only [front, Array.size_extract, size_toArray]
  omega

end Mat

namespace Checked

section Front

variable (B : Mat α n m) {count : ℕ} (hcount : count ≤ m)

include hcount

theorem split_columns : split B.toArray (count * n)
    = .ok (B.front count, B.toArray.extract (count * n) (n * m)) := by
  rw [split, if_pos ((Mat.front_end_le hcount).trans_eq B.size_toArray.symm), B.size_toArray]
  rfl

theorem part_front (i : Fin count) :
    part (B.front count) (i * n) ((i + 1) * n) = .ok (B.col (i.castLE hcount)).toArray := by
  have hend := Mat.col_end_le (n := n) i
  have hsucc : (i.val + 1) * n = i * n + n := Nat.succ_mul i.val n
  have hsize := B.size_front hcount
  rw [Nat.mul_comm n count] at hend
  rw [part, if_pos (by omega), Mat.toArray_col, Mat.front, Array.extract_extract, hsucc]
  congr 2
  · exact Nat.zero_add _
  · rw [Nat.zero_add]
    exact Nat.min_eq_left hend

theorem read_front (i : Fin count) (k : Fin n) :
    read (B.front count) (i * n + k) = .ok (B.get k (i.castLE hcount)) := by
  have hindex := Mat.index_lt k i
  have hsize := B.size_front hcount
  rw [Nat.mul_comm n count] at hindex
  rw [read_of_lt (by omega)]
  simp only [Mat.front, Array.getElem_extract, Nat.zero_add]
  rfl

end Front

/-- A column and what is behind it. -/
theorem split_column (B : Mat α n m) (c : Fin m) :
    split (B.toArray.extract (c * n) (n * m)) n
      = .ok ((B.col c).toArray, B.toArray.extract (c * n + n) (n * m)) := by
  have hend := Mat.col_end_le (n := n) c
  have hsize : (B.toArray.extract (c * n) (n * m)).size = n * m - c * n := by
    simp only [Array.size_extract, Mat.size_toArray, Nat.min_self]
  rw [split, if_pos (by omega), Mat.toArray_col, Array.extract_extract, Array.extract_extract,
    hsize]
  congr 3 <;> omega

variable [Scalar α]

/-! ## Unit vectors -/

/-- A vector divided by its norm, or the first coordinate direction. -/
def normalize (epsZero : α) (v : Array α) : Except Fault (Array α) :=
  if epsZero < Slice.norm v then .ok (Slice.scale (recip (Slice.norm v)) v)
  else write (Slice.scale 0 v) 0 1

/-- A vector less its components along the first `count` columns of a slice. -/
def project (n count : ℕ) (done w : Array α) : Except Fault (Array α) :=
  loop 0 count (fun i w => do
    let v ← part done (i * n) ((i + 1) * n)
    let c ← Slice.inner w v
    Slice.addScaled (-c) v w) w

/-- The projection done twice. -/
def orthogonalize (n count : ℕ) (done w : Array α) : Except Fault (Array α) := do
  project n count done (← project n count done w)

/-- How much of a coordinate direction lies in the span of the first `count` columns. -/
def coverage (n count : ℕ) (done : Array α) (k : ℕ) : Except Fault α :=
  loop 0 count (fun i s => do
    let e ← read done (i * n + k)
    return s + e * e) 0

/-- The less covered one of the best coordinate so far and the coordinate `k`, with its coverage. -/
def lessCovered (n count : ℕ) (done : Array α) (k : ℕ) (best : ℕ × Option α) :
    Except Fault (ℕ × Option α) := do
  let c ← coverage n count done k
  match best.2 with
  | none => return if isFinite c then (k, some c) else best
  | some c' => return if c < c' then (k, some c) else best

/-- The coordinate that is least covered by the first `count` columns, the first one if none has
finite coverage. -/
def leastCovered (n count : ℕ) (done : Array α) : Except Fault ℕ := do
  let (k, _) ← loop 0 n (lessCovered n count done) (0, none)
  return k

/-! ## Steps -/

/-- The slices of a restart. -/
structure KrylovSlices (α : Type) where
  basis : Array α
  image : Array α
  diag : Array α
  coupling : Array α
  tri : Array α
  values : Array α
  vectors : Array α

/-- The slices of a state. -/
def KrylovSlices.of (K : Krylov α n m) : KrylovSlices α where
  basis := K.basis.toArray
  image := K.image.toArray
  diag := K.diag.toArray
  coupling := K.coupling.toArray
  tri := K.tri.toArray
  values := K.values.toArray
  vectors := K.vectors.toArray

/-- The slices one after the other. -/
def KrylovSlices.toArray (K : KrylovSlices α) : Array α :=
  K.basis ++ K.image ++ K.diag ++ K.coupling ++ K.tri ++ K.values ++ K.vectors

/-- The step that works on basis vector `j` of `m`. -/
def extend (n m : ℕ) (mat : Array α) (tiny : α) (K : KrylovSlices α) (j : ℕ) :
    Except Fault (KrylovSlices α) := do
  let (done, next) ← split K.basis ((j + 1) * n)
  let v ← part done (j * n) done.size
  let image ← transform n n 1 mat v 0 K.image
  let diag ← write K.diag j (← Slice.inner image v)
  let image ← orthogonalize n (j + 1) done image
  let coupling ← write K.coupling j (Slice.norm image)
  let b ← read coupling j
  if j + 1 = m then
    let coupling ← if b ≤ tiny then write coupling j 0 else .ok coupling
    return { K with image := image, diag := diag, coupling := coupling }
  else
    let (old, behind) ← split next n
    if tiny < b then
      let v ← Slice.copy image old
      return { K with
        image := image
        diag := diag
        coupling := coupling
        basis := done ++ Slice.scale (recip b) v ++ behind }
    else
      let coupling ← write coupling j 0
      let k ← leastCovered n (j + 1) done
      let v ← write (Slice.scale 0 old) k 1
      let v ← orthogonalize n (j + 1) done v
      return { K with
        image := image
        diag := diag
        coupling := coupling
        basis := done ++ Slice.scale (recip (Slice.norm v)) v ++ behind }

/-- The whole basis, from its first vector, and the number of its vectors. -/
def build (n m : ℕ) (mat : Array α) (tiny : α) (v : Array α) (K : KrylovSlices α) :
    Except Fault (KrylovSlices α × ℕ) := do
  let (old, behind) ← split K.basis n
  let v ← Slice.copy v old
  loop 0 m (fun j s => do return (← extend n m mat tiny s.1 j, j + 1))
    ({ K with basis := v ++ behind }, 0)

/-! ## What the steps leave -/

theorem normalize_eq (epsZero : α) (v : Vector α n) (hn : 0 < n) :
    normalize epsZero v.toArray = .ok (Spectrahedron.normalize epsZero v hn).toArray := by
  unfold normalize Spectrahedron.normalize
  rw [Slice.norm_toArray, Slice.scale_toArray, Slice.scale_toArray]
  dsimp only
  split
  · rfl
  · exact write_vector _ ⟨0, hn⟩ 1

section Front

variable (B : Mat α n m) {count : ℕ} (hcount : count ≤ m)

include hcount

theorem project_eq (w : Vector α n) :
    project n count (B.front count) w.toArray
      = .ok (Krylov.project B count hcount w).toArray := by
  refine loop_finRange Vector.toArray (fun w i => ?_) w
  rw [part_front B hcount i, ok_bind, Slice.inner_toArray, ok_bind, Slice.addScaled_toArray]

theorem orthogonalize_eq (w : Vector α n) :
    orthogonalize n count (B.front count) w.toArray
      = .ok (Krylov.orthogonalize B count hcount w).toArray := by
  rw [orthogonalize, project_eq B hcount, ok_bind, project_eq B hcount]
  rfl

theorem coverage_eq (k : Fin n) :
    coverage n count (B.front count) k = .ok (Krylov.coverage B count hcount k) := by
  refine loop_finRange id (fun s i => ?_) 0
  rw [read_front B hcount]
  rfl

/-- The best coordinate so far, which is zero as long as there is none. -/
def best (s : Option (Fin n × α)) : ℕ × Option α :=
  match s with
  | none => (0, none)
  | some (k, c) => (k, some c)

theorem lessCovered_eq (s : Option (Fin n × α)) (k : Fin n) :
    lessCovered n count (B.front count) k (best s)
      = .ok (best (Krylov.lessCovered B count hcount s k)) := by
  unfold lessCovered Krylov.lessCovered
  rw [coverage_eq B hcount, ok_bind]
  cases s with
  | none =>
    dsimp only [best]
    split <;> rfl
  | some p =>
    dsimp only [best]
    split <;> rfl

theorem leastCovered_eq (hn : 0 < n) :
    leastCovered n count (B.front count)
      = .ok (Krylov.leastCovered B count hcount ⟨0, hn⟩).val := by
  have hscan : loop 0 n (lessCovered n count (B.front count)) (best none) = _ :=
    loop_finRange best (lessCovered_eq B hcount) none
  unfold leastCovered Krylov.leastCovered
  rw [show ((0 : ℕ), (none : Option α)) = best (n := n) none from rfl, hscan, ok_bind]
  cases Fin.foldl n (Krylov.lessCovered B count hcount) none <;> rfl

end Front

theorem extend_eq (G : Mat α n n) (tiny : α) (hn : 0 < n) (K : Krylov α n m) (j : Fin m) :
    extend n m G.toArray tiny (.of K) j = .ok (.of (K.extend G tiny ⟨0, hn⟩ j)) := by
  have hsplit : split K.basis.toArray ((j + 1) * n)
      = .ok (K.basis.front (j + 1), K.basis.toArray.extract ((j + 1) * n) (n * m)) :=
    split_columns K.basis j.isLt
  have hcol : part (K.basis.front (j + 1)) (j * n) (K.basis.front (j + 1)).size
      = .ok (K.basis.col j).toArray := by
    rw [K.basis.size_front j.isLt]
    exact part_front K.basis j.isLt (Fin.last j)
  unfold extend Krylov.extend
  simp only [KrylovSlices.of, hsplit, hcol, transform_eq, Slice.inner_toArray, write_vector,
    orthogonalize_eq K.basis j.isLt, Slice.norm_toArray, read_vector, Vec.get_setEntry, if_true,
    ok_bind]
  by_cases hnext : j.val + 1 < m
  · have hnext' : ¬j.val + 1 = m := hnext.ne
    have hcolumn : split (K.basis.toArray.extract ((j + 1) * n) (n * m)) n = .ok
        ((K.basis.col ⟨j + 1, hnext⟩).toArray, K.basis.toArray.extract ((j + 1) * n + n) (n * m)) :=
      split_column K.basis ⟨j + 1, hnext⟩
    have hbasis : ∀ v : Vector α n, K.basis.front (j + 1) ++ v.toArray
        ++ K.basis.toArray.extract ((j + 1) * n + n) (n * m)
          = (K.basis.setCol ⟨j + 1, hnext⟩ v).toArray :=
      fun v => (K.basis.toArray_setCol ⟨j + 1, hnext⟩ v).symm
    rw [dif_pos hnext, if_neg hnext', hcolumn, ok_bind]
    dsimp only
    split
    · simp only [Slice.copy_toArray, Slice.scale_toArray, hbasis, ok_bind]
      rfl
    · simp only [write_vector, leastCovered_eq K.basis j.isLt hn, orthogonalize_eq K.basis j.isLt,
        Slice.norm_toArray, Slice.scale_toArray, hbasis, ok_bind, Vec.setEntry_setEntry]
      rfl
  · have hlast : j.val + 1 = m := by omega
    rw [dif_neg hnext, if_pos hlast]
    split
    · rw [Vec.setEntry_setEntry]
      rfl
    · rfl

theorem build_eq (G : Mat α n n) (tiny : α) (hm : 0 < m) (hmn : m ≤ n) (v : Vector α n)
    (K : Krylov α n m) :
    build n m G.toArray tiny v.toArray (.of K) = .ok (.of (K.build G tiny hm hmn v), m) := by
  have hn : 0 < n := hm.trans_le hmn
  have hcolumn : split K.basis.toArray n
      = .ok ((K.basis.col ⟨0, hm⟩).toArray, K.basis.toArray.extract n (n * m)) := by
    have h := split_column K.basis ⟨0, hm⟩
    rwa [Nat.zero_mul, Nat.zero_add, Array.extract_eq_self_of_le K.basis.size_toArray.le] at h
  have hfirst : ({ KrylovSlices.of K with
      basis := v.toArray ++ K.basis.toArray.extract n (n * m) } : KrylovSlices α)
        = .of { K with basis := K.basis.setCol ⟨0, hm⟩ v } := by
    have h := K.basis.toArray_setCol ⟨0, hm⟩ v
    rw [Nat.zero_mul, Nat.zero_add, Array.extract_zero, Array.empty_append] at h
    rw [← h]
    rfl
  have hcount : Fin.foldl m
      (fun (t : Krylov α n m × ℕ) j => (t.1.extend G tiny ⟨0, hn⟩ j, j.val + 1))
      ({ K with basis := K.basis.setCol ⟨0, hm⟩ v }, 0) = (K.build G tiny hm hmn v, m) :=
    foldl_related (fun j (t : Krylov α n m × ℕ) K => t = (K, j)) rfl fun j t K h => by rw [h]
  unfold build
  rw [show (KrylovSlices.of K).basis = K.basis.toArray from rfl, hcolumn]
  simp only [Slice.copy_toArray, ok_bind]
  rw [hfirst]
  refine (loop_finRange (f := fun t j => (t.1.extend G tiny ⟨0, hn⟩ j, j.val + 1))
    (fun t : Krylov α n m × ℕ => (KrylovSlices.of t.1, t.2)) (fun t j => ?_) (_, 0)).trans ?_
  · rw [extend_eq G tiny hn]
    rfl
  · rw [hcount]

end Checked

end Spectrahedron
