import Spectrahedron.Failure
import Spectrahedron.Vec

/-!
# Matrices

A matrix with `m` rows and `n` columns is stored in one flat vector, column after column: entry
`(r, c)` is the element number `c * m + r`. All code outside of this module reads a matrix through
`Mat.get` and builds one with `Mat.ofFn` or `Mat.set`; the statements here say what those do.

**Theorem (`Mat.get_ofFn`, `Mat.get_set`, `Mat.ext`).** The entries determine the matrix, each
entry of `ofFn f` is the value of `f`, and `set` changes one entry and no other.
-/

namespace Spectrahedron

/-- An `m` by `n` matrix, column after column. -/
structure Mat (α : Type) (m n : Nat) where
  data : Vector α (m * n)
  deriving Repr

namespace Mat

variable {α : Type} {m n : Nat}

/-! ## The layout -/

theorem index_lt (r : Fin m) (c : Fin n) : c.val * m + r.val < m * n := by
  have h1 : c.val * m + m ≤ n * m := by
    rw [← Nat.succ_mul]
    exact Nat.mul_le_mul_right m c.isLt
  have h2 := r.isLt
  rw [Nat.mul_comm m n]
  omega

/-- The position of entry `(r, c)`. -/
@[inline] def index (r : Fin m) (c : Fin n) : Fin (m * n) := ⟨c.val * m + r.val, index_lt r c⟩

theorem rows_pos (k : Fin (m * n)) : 0 < m :=
  Nat.pos_of_mul_pos_right (Nat.lt_of_le_of_lt (Nat.zero_le _) k.isLt)

/-- The row of the entry at a position. -/
@[inline] def rowOf (k : Fin (m * n)) : Fin m := ⟨k.val % m, Nat.mod_lt _ (rows_pos k)⟩

/-- The column of the entry at a position. -/
@[inline] def colOf (k : Fin (m * n)) : Fin n := ⟨k.val / m, Nat.div_lt_of_lt_mul k.isLt⟩

@[simp] theorem rowOf_index (r : Fin m) (c : Fin n) : rowOf (index r c) = r := by
  apply Fin.ext
  simp only [rowOf, index]
  rw [Nat.mul_comm, Nat.mul_add_mod]
  exact Nat.mod_eq_of_lt r.isLt

@[simp] theorem colOf_index (r : Fin m) (c : Fin n) : colOf (index r c) = c := by
  apply Fin.ext
  have hm : 0 < m := Nat.lt_of_le_of_lt (Nat.zero_le _) r.isLt
  simp only [colOf, index]
  rw [Nat.mul_comm, Nat.mul_add_div hm, Nat.div_eq_of_lt r.isLt, Nat.add_zero]

@[simp] theorem index_rowOf_colOf (k : Fin (m * n)) : index (rowOf k) (colOf k) = k := by
  apply Fin.ext
  simp only [index, rowOf, colOf]
  rw [Nat.mul_comm]
  exact Nat.div_add_mod k.val m

theorem index_inj {r r' : Fin m} {c c' : Fin n} :
    index r c = index r' c' ↔ r = r' ∧ c = c' := by
  constructor
  · intro h
    exact ⟨by rw [← rowOf_index r c, h, rowOf_index], by rw [← colOf_index r c, h, colOf_index]⟩
  · rintro ⟨rfl, rfl⟩
    rfl

/-! ## Entries -/

/-- The entry in row `r` and column `c`. -/
@[inline] def get (A : Mat α m n) (r : Fin m) (c : Fin n) : α := A.data.get (index r c)

/-- The matrix with entry `f r c` in row `r` and column `c`. -/
@[inline] def ofFn (f : Fin m → Fin n → α) : Mat α m n :=
  ⟨Vector.ofFn fun k => f (rowOf k) (colOf k)⟩

/-- The matrix with the entry in row `r` and column `c` replaced by `a`. -/
@[inline] def set (A : Mat α m n) (r : Fin m) (c : Fin n) (a : α) : Mat α m n :=
  ⟨A.data.set (index r c).val a (index r c).isLt⟩

/-- The matrix with every entry replaced by its image. -/
@[inline] def map (f : α → α) (A : Mat α m n) : Mat α m n := ⟨A.data.map f⟩

/-- Column `c`, from the first row to the last. -/
@[inline] def col (A : Mat α m n) (c : Fin n) : Vector α m := Vector.ofFn fun r => A.get r c

/-- The matrix with column `c` replaced by `v`. -/
@[inline] def setCol (A : Mat α m n) (c : Fin n) (v : Vector α m) : Mat α m n :=
  ofFn fun r c' => if c' = c then v.get r else A.get r c'

/-- The matrix with those entries replaced for which `entries` has a value. The entries are in the
order of the flat form; those beyond the end of `entries` are kept, and entries beyond the matrix do
not count. -/
def patch (A : Mat α m n) (entries : Array (Option α)) : Mat α m n :=
  ⟨Vector.ofFn fun k => (entries[k.val]?.join).getD (A.data.get k)⟩

/-- The diagonal of a square matrix. -/
@[inline] def diagonal (A : Mat α n n) : Vector α n := Vector.ofFn fun i => A.get i i

theorem ext_get {A B : Mat α m n} (h : ∀ r c, A.get r c = B.get r c) : A = B := by
  have hdata : A.data = B.data := Vec.ext_get fun k => by
    have hk := h (rowOf k) (colOf k)
    simp only [get, index_rowOf_colOf] at hk
    exact hk
  cases A
  cases B
  exact congrArg mk hdata

@[simp] theorem get_ofFn (f : Fin m → Fin n → α) (r : Fin m) (c : Fin n) :
    (ofFn f).get r c = f r c := by
  simp only [ofFn, get, Vec.get_ofFn, rowOf_index, colOf_index]

theorem get_set (A : Mat α m n) (r r' : Fin m) (c c' : Fin n) (a : α) :
    (A.set r c a).get r' c' = if r = r' ∧ c = c' then a else A.get r' c' := by
  simp only [set, get]
  exact (Vec.get_setEntry A.data (index r c) (index r' c') a).trans (by simp only [index_inj])

@[simp] theorem get_map (f : α → α) (A : Mat α m n) (r : Fin m) (c : Fin n) :
    (A.map f).get r c = f (A.get r c) := by
  simp [map, get]

@[simp] theorem get_col (A : Mat α m n) (r : Fin m) (c : Fin n) :
    (A.col c).get r = A.get r c := by
  simp [col]

@[simp] theorem get_setCol (A : Mat α m n) (c c' : Fin n) (v : Vector α m) (r : Fin m) :
    (A.setCol c v).get r c' = if c' = c then v.get r else A.get r c' := by
  simp [setCol]

@[simp] theorem col_setCol_self (A : Mat α m n) (c : Fin n) (v : Vector α m) :
    (A.setCol c v).col c = v := Vec.ext_get fun r => by simp

theorem col_setCol_of_ne (A : Mat α m n) {c c' : Fin n} (h : c' ≠ c) (v : Vector α m) :
    (A.setCol c v).col c' = A.col c' := Vec.ext_get fun r => by simp [h]

@[simp] theorem get_diagonal (A : Mat α n n) (i : Fin n) : A.diagonal.get i = A.get i i := by
  simp [diagonal]

/-! ## Flat arrays -/

/-- The matrix whose flat form is `a`. -/
@[inline] def ofArray (a : Array α) (h : a.size = m * n) : Mat α m n := ⟨⟨a, h⟩⟩

/-- The flat form, column after column. -/
@[inline] def toArray (A : Mat α m n) : Array α := A.data.toArray

/-- The matrix whose flat form is `a`, whose length is checked. -/
def ofArray? (a : Array α) : Except Fault (Mat α m n) :=
  if h : a.size = m * n then .ok (ofArray a h) else .error .lengthMismatch

/-- The matrix whose flat form is at the front of `a`. Entries behind it do not count. -/
def ofFront? (a : Array α) : Except Fault (Mat α m n) := ofArray? (a.extract 0 (m * n))

@[simp] theorem size_toArray (A : Mat α m n) : A.toArray.size = m * n := A.data.size_toArray

@[simp] theorem toArray_ofArray (a : Array α) (h : a.size = m * n) :
    (ofArray a h : Mat α m n).toArray = a := rfl

@[simp] theorem ofArray_toArray (A : Mat α m n) :
    ofArray A.toArray A.size_toArray = A := rfl

theorem ofArray?_toArray (A : Mat α m n) : (ofArray? A.toArray : Except Fault (Mat α m n)) = .ok A :=
  dif_pos A.size_toArray

theorem ofFront?_toArray (A : Mat α m n) :
    (ofFront? A.toArray : Except Fault (Mat α m n)) = .ok A := by
  unfold ofFront?
  rw [← A.size_toArray, Array.extract_size]
  exact A.ofArray?_toArray

theorem getElem_toArray (A : Mat α m n) (r : Fin m) (c : Fin n) :
    A.toArray[c.val * m + r.val]? = some (A.get r c) := by
  have h : c.val * m + r.val < A.toArray.size := by
    rw [size_toArray]
    exact index_lt r c
  rw [Array.getElem?_eq_getElem h]
  rfl

end Mat

end Spectrahedron
