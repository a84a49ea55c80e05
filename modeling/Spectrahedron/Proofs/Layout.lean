import Spectrahedron.Proofs.Checked.Kernels

/-!
# One layout

The kernels find the entries of a matrix in its slice by arithmetic of their own. One view of a
slice is of any shape, and is read as it is or with row and column exchanged; another is square, and
is written. Here the view that exchanges row and column is added to the loops over slices, which
then answer as the kernels do, whatever the lengths of the slices.

That all of them mean one layout shows in identities between kernels, each of which fails when one
kernel reads rows for columns.

**Theorem (`kernels_share_layout`).** Transforming by a matrix and by its transpose are adjoint, the
trace of a product does not depend on the order of the factors, and a rank-one update adds a
quadratic form to it.
-/

namespace Spectrahedron

variable {α β : Type} {m n : ℕ}

namespace Checked

/-! ## Slices of any length -/

theorem require_not {p : Prop} [Decidable p] (h : ¬p) :
    require p = .error .lengthMismatch := if_neg h

/-- A call that refuses slices of the wrong length is one on the matrix in the slice. -/
theorem eq_ofArray?_bind {F : Array α → Except Fault β} {G : Mat α m n → Except Fault β}
    (hmat : ∀ A, F (Mat.toArray A) = G A)
    (hrefused : ∀ a, Array.size a ≠ m * n → F a = .error .lengthMismatch) (a : Array α) :
    F a = Mat.ofArray? a >>= G := by
  unfold Mat.ofArray?
  split
  · rename_i hsize
    exact hmat (Mat.ofArray a hsize)
  · rename_i hsize
    exact hrefused a hsize

/-- A call that refuses slices of the wrong length is one on the vector in the slice. -/
theorem eq_toVector?_bind {F : Array α → Except Fault β} {G : Vector α n → Except Fault β}
    (hvector : ∀ x, F (Vector.toArray x) = G x)
    (hrefused : ∀ a, Array.size a ≠ n → F a = .error .lengthMismatch) (a : Array α) :
    F a = Slice.toVector? n a >>= G := by
  unfold Slice.toVector?
  split
  · rename_i hsize
    exact hvector ⟨a, hsize⟩
  · rename_i hsize
    exact hrefused a hsize

/-! ## Views of a matrix -/

/-- Entry `(r, c)` of an `m` by `n` matrix in a slice, or of its transpose. -/
def entryOf (transpose : Bool) (m n : ℕ) (mat : Array α) (r c : ℕ) : Except Fault α :=
  if transpose then entry m n mat c r else entry m n mat r c

variable [Scalar α]

/-- The vector `a A x + b y`, or `a Aᵀ x + b y`, written over `y`. -/
def transformOf (transpose : Bool) (m n : ℕ) (a : α) (mat x : Array α) (b : α) (y : Array α) :
    Except Fault (Array α) := do
  require (mat.size = m * n)
  require (x.size = if transpose then m else n)
  require (y.size = if transpose then n else m)
  loop 0 y.size (fun r y => do
    let s ← loop 0 x.size (fun c s => do
      return s + (← entryOf transpose m n mat r c) * (← read x c)) 0
    write y r (a * s + b * (← read y r))) y

theorem transformOf_refused {transpose : Bool} {a : α} {mat x : Array α} {b : α} {y : Array α}
    (h : ¬(mat.size = m * n ∧ x.size = (if transpose then m else n) ∧
      y.size = if transpose then n else m)) :
    transformOf transpose m n a mat x b y = .error .lengthMismatch := by
  unfold transformOf
  by_cases hmat : mat.size = m * n
  · by_cases hx : x.size = if transpose then m else n
    · rw [require_of hmat, require_of hx, require_not fun hy => h ⟨hmat, hx, hy⟩]
      rfl
    · rw [require_of hmat, require_not hx]
      rfl
  · rw [require_not hmat]
    rfl

theorem transformOf_false_eq (a : α) (A : Mat α m n) (x : Vector α n) (b : α) (y : Vector α m) :
    transformOf false m n a A.toArray x.toArray b y.toArray = .ok (A.transform a x b y).toArray :=
  transform_eq a A x b y

theorem transformOf_true_eq (a : α) (A : Mat α m n) (x : Vector α m) (b : α) (y : Vector α n) :
    transformOf true m n a A.toArray x.toArray b y.toArray
      = .ok (A.transformTranspose a x b y).toArray := by
  unfold transformOf
  rw [if_pos rfl, if_pos rfl, require_of A.size_toArray, require_of x.size_toArray,
    require_of y.size_toArray, Vector.size_toArray, Vector.size_toArray]
  exact loop_product (fun c r => entry_mat A r c) a x b y

/-- The loops look at no slice of a wrong length. -/
theorem transformOf_eq_bind {transpose : Bool} {p q : ℕ} (hq : q = if transpose then m else n)
    (hp : p = if transpose then n else m) {a b : α}
    {G : Mat α m n → Vector α q → Vector α p → Except Fault (Array α)}
    (hG : ∀ A x y, transformOf transpose m n a (Mat.toArray A) (Vector.toArray x) b
      (Vector.toArray y) = G A x y) (mat x y : Array α) :
    transformOf transpose m n a mat x b y
      = (do G (← Mat.ofArray? mat) (← Slice.toVector? q x) (← Slice.toVector? p y)) := by
  refine eq_ofArray?_bind (F := fun mat => transformOf transpose m n a mat x b y) (fun A => ?_)
    (fun mat hmat => transformOf_refused fun h => hmat h.1) mat
  refine eq_toVector?_bind (F := fun x => transformOf transpose m n a A.toArray x b y)
    (fun x => ?_) (fun x hx => transformOf_refused fun h => hx (h.2.1.trans hq.symm)) x
  exact eq_toVector?_bind (hG A x)
    (fun y hy => transformOf_refused fun h => hy (h.2.2.trans hp.symm)) y

/-- The loops transform slices of any lengths as the kernels do. -/
theorem transformOf_eq_slice (transpose : Bool) (m n : ℕ) (a : α) (mat x : Array α) (b : α)
    (y : Array α) :
    transformOf transpose m n a mat x b y
      = if transpose then Slice.transformTranspose m n a mat x b y
        else Slice.transform m n a mat x b y := by
  cases transpose with
  | false => exact transformOf_eq_bind rfl rfl (fun A x y => transformOf_false_eq a A x b y) mat x y
  | true => exact transformOf_eq_bind rfl rfl (fun A x y => transformOf_true_eq a A x b y) mat x y

theorem addRankOne_eq_slice (n : ℕ) (a : α) (x mat : Array α) :
    addRankOne n a x mat = Slice.addRankOne n a x mat := by
  refine eq_toVector?_bind (F := fun x => addRankOne n a x mat) (fun x => ?_) (fun x hx => ?_) x
  · refine eq_ofArray?_bind (addRankOne_eq a x) (fun mat hmat => ?_) mat
    rw [addRankOne, require_of x.size_toArray, require_not hmat]
    rfl
  · rw [addRankOne, require_not hx]
    rfl

theorem traceProduct_eq_slice (n : ℕ) (a b : Array α) :
    traceProduct n a b = Slice.traceProduct n a b := by
  refine eq_ofArray?_bind (F := fun a => traceProduct n a b) (fun A => ?_) (fun a ha => ?_) a
  · refine eq_ofArray?_bind (traceProduct_eq A) (fun b hb => ?_) b
    rw [traceProduct, require_of A.size_toArray, require_not hb]
    rfl
  · rw [traceProduct, require_not ha]
    rfl

end Checked

/-! ## Kernels on the slices of matrices -/

namespace Slice

variable [Scalar α]

theorem transform_toArray (a : α) (A : Mat α m n) (x : Vector α n) (b : α) (y : Vector α m) :
    transform m n a A.toArray x.toArray b y.toArray = .ok (A.transform a x b y).toArray := by
  unfold transform
  rw [A.ofArray?_toArray, toVector?_toArray, toVector?_toArray]
  rfl

theorem transformTranspose_toArray (a : α) (A : Mat α m n) (x : Vector α m) (b : α)
    (y : Vector α n) :
    transformTranspose m n a A.toArray x.toArray b y.toArray
      = .ok (A.transformTranspose a x b y).toArray := by
  unfold transformTranspose
  rw [A.ofArray?_toArray, toVector?_toArray, toVector?_toArray]
  rfl

theorem addRankOne_toArray (a : α) (x : Vector α n) (A : Mat α n n) :
    addRankOne n a x.toArray A.toArray = .ok (A.addRankOne a x).toArray := by
  unfold addRankOne
  rw [A.ofArray?_toArray, toVector?_toArray]
  rfl

theorem traceProduct_toArray (A B : Mat α n n) :
    traceProduct n A.toArray B.toArray = .ok (A.traceProduct B) := by
  unfold traceProduct
  rw [A.ofArray?_toArray, B.ofArray?_toArray]
  rfl

end Slice

/-! ## Identities -/

namespace Mat

open Matrix

theorem inner_transform_eq_sum (A : Mat ℝ m n) (x : Vector ℝ n) (y z : Vector ℝ m) :
    inner (A.transform 1 x 0 z) y = ∑ r, ∑ c, A.get r c * x.get c * y.get r := by
  rw [inner_eq]
  refine Finset.sum_congr rfl fun r _ => ?_
  rw [get_transform, sum_eq, one_mul, zero_mul, add_zero, Finset.sum_mul]

theorem inner_transformTranspose_eq_sum (A : Mat ℝ m n) (x z : Vector ℝ n) (y : Vector ℝ m) :
    inner x (A.transformTranspose 1 y 0 z) = ∑ r, ∑ c, A.get r c * x.get c * y.get r := by
  rw [inner_eq, Finset.sum_comm]
  refine Finset.sum_congr rfl fun c _ => ?_
  rw [get_transformTranspose, sum_eq, one_mul, zero_mul, add_zero, Finset.mul_sum]
  exact Finset.sum_congr rfl fun r _ => by ring

theorem traceProduct_eq_sum (A B : Mat ℝ n n) :
    A.traceProduct B = ∑ r, ∑ c, A.get r c * B.get c r := by
  rw [traceProduct_eq, Finset.sum_comm]

theorem traceProduct_comm (A B : Mat ℝ n n) : A.traceProduct B = B.traceProduct A := by
  rw [traceProduct_eq_trace, traceProduct_eq_trace, Matrix.trace_mul_comm]

theorem traceProduct_addRankOne (A S : Mat ℝ n n) (a : ℝ) (x z : Vector ℝ n) :
    A.traceProduct (S.addRankOne a x)
      = A.traceProduct S + a * inner x (A.transform 1 x 0 z) := by
  rw [traceProduct_eq_trace, traceProduct_eq_trace, toMatrix_addRankOne, Matrix.mul_add, trace_add,
    Matrix.mul_smul, trace_smul, mul_vecMulVec, trace_vecMulVec, smul_eq_mul, inner_eq_dotProduct,
    get_transform_eq_mulVec, dotProduct_comm, add_comm]

end Mat

/-- **One layout.** The loops over slices answer as the kernels do, whatever the lengths. In exact
arithmetic `⟨G x, y⟩ = ⟨x, Gᵀ y⟩ = ∑ G_rc x_c y_r`, the trace of a product is `∑ A_rc B_cr` in
either order, and `Tr (A (a x xᵀ + S)) = Tr (A S) + a ⟨x, A x⟩`, also when `A` is not symmetric. -/
theorem kernels_share_layout :
    (∀ (transpose : Bool) (m n : ℕ) (a : ℝ) (mat x : Array ℝ) (b : ℝ) (y : Array ℝ),
      Checked.transformOf transpose m n a mat x b y
        = if transpose then Slice.transformTranspose m n a mat x b y
          else Slice.transform m n a mat x b y) ∧
    (∀ (n : ℕ) (a : ℝ) (x mat : Array ℝ),
      Checked.addRankOne n a x mat = Slice.addRankOne n a x mat) ∧
    (∀ (n : ℕ) (a b : Array ℝ), Checked.traceProduct n a b = Slice.traceProduct n a b) ∧
    (∀ {m n : ℕ} (G : Mat ℝ m n) (x w : Vector ℝ n) (y z : Vector ℝ m), ∃ u v s,
      Slice.transform m n 1 G.toArray x.toArray 0 z.toArray = .ok u ∧
      Slice.transformTranspose m n 1 G.toArray y.toArray 0 w.toArray = .ok v ∧
      Slice.inner u y.toArray = .ok s ∧ Slice.inner x.toArray v = .ok s ∧
      s = ∑ r, ∑ c, G.get r c * x.get c * y.get r) ∧
    (∀ {n : ℕ} (A B : Mat ℝ n n), ∃ s,
      Slice.traceProduct n A.toArray B.toArray = .ok s ∧
      Slice.traceProduct n B.toArray A.toArray = .ok s ∧
      s = ∑ r, ∑ c, A.get r c * B.get c r) ∧
    ∀ {n : ℕ} (A S : Mat ℝ n n) (a : ℝ) (x z : Vector ℝ n), ∃ S' u s t,
      Slice.addRankOne n a x.toArray S.toArray = .ok S' ∧
      Slice.transform n n 1 A.toArray x.toArray 0 z.toArray = .ok u ∧
      Slice.traceProduct n A.toArray S.toArray = .ok s ∧ Slice.inner x.toArray u = .ok t ∧
      Slice.traceProduct n A.toArray S' = .ok (s + a * t) := by
  refine ⟨Checked.transformOf_eq_slice, Checked.addRankOne_eq_slice, Checked.traceProduct_eq_slice,
    fun G x w y z => ?adjoint, fun A B => ?trace, fun A S a x z => ?update⟩
  case adjoint =>
    refine ⟨_, _, _, Slice.transform_toArray 1 G x 0 z, Slice.transformTranspose_toArray 1 G y 0 w,
      Slice.inner_toArray _ y, ?_, G.inner_transform_eq_sum x y z⟩
    rw [Slice.inner_toArray, G.inner_transformTranspose_eq_sum, G.inner_transform_eq_sum]
  case trace =>
    refine ⟨_, Slice.traceProduct_toArray A B, ?_, A.traceProduct_eq_sum B⟩
    rw [Slice.traceProduct_toArray, B.traceProduct_comm]
  case update =>
    refine ⟨_, _, _, _, Slice.addRankOne_toArray a x S, Slice.transform_toArray 1 A x 0 z,
      Slice.traceProduct_toArray A S, Slice.inner_toArray x _, ?_⟩
    rw [Slice.traceProduct_toArray, A.traceProduct_addRankOne S a x z]

end Spectrahedron
