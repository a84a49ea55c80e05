import Spectrahedron.Proofs.Checked.Filling
import Spectrahedron.Proofs.Linear

/-!
# Operations on square matrices

A square matrix is made and changed by operations: it is new, the identity or given in columns, it is
filled by calls or from rows, scaled, and an entry of it is set. Each of them has three forms: on the
slice that the matrix is kept in, on the typed matrix, and on the table of its entries, which knows
nothing of a layout. The forms agree, also on what fails, and so they do after any sequence.

**Theorem (`SquareMatrix.operations_agree`).** After any operations the slice is that of the typed
matrix and holds the entries of the table.
-/

namespace Spectrahedron

variable {α : Type}

/-! ## Agreement -/

/-- Two calls fail alike, or both return, and the results are related. -/
def Agree {β γ : Type} (R : β → γ → Prop) : Except Fault β → Except Fault γ → Prop
  | .ok b, .ok c => R b c
  | .error f, .error f' => f = f'
  | _, _ => False

namespace Agree

variable {β γ : Type} {R : β → γ → Prop} {x : Except Fault β} {y : Except Fault γ}

theorem bind {β' γ' : Type} {R' : β' → γ' → Prop} {f : β → Except Fault β'}
    {g : γ → Except Fault γ'} (h : Agree R x y) (hstep : ∀ b c, R b c → Agree R' (f b) (g c)) :
    Agree R' (x >>= f) (y >>= g) := by
  cases x with
  | error => cases y with
    | error => exact h
    | ok => exact h.elim
  | ok b => cases y with
    | error => exact h.elim
    | ok c => exact hstep b c h

/-- Two calls that agree with a third one agree with each other. -/
theorem eq_map {δ : Type} {R' : δ → γ → Prop} {z : Except Fault δ} {f : δ → β} (h : Agree R x y)
    (h' : Agree R' z y) (hR : ∀ b d c, R b c → R' d c → b = f d) : x = z.map f := by
  cases y with
  | error => cases x with
    | ok => exact h.elim
    | error => cases z with
      | ok => exact h'.elim
      | error => exact congrArg Except.error (Eq.trans h (Eq.symm h'))
  | ok c => cases x with
    | error => exact h.elim
    | ok b => cases z with
      | error => exact h'.elim
      | ok d => exact congrArg Except.ok (hR b d c h h')

theorem foldlM {ι : Type*} {f : β → ι → Except Fault β} {g : γ → ι → Except Fault γ}
    (hstep : ∀ b c i, R b c → Agree R (f b i) (g c i)) {b : β} {c : γ} (h : R b c) (l : List ι) :
    Agree R (l.foldlM f b) (l.foldlM g c) := by
  induction l generalizing b c with
  | nil => exact h
  | cons i l ih =>
    rw [List.foldlM_cons, List.foldlM_cons]
    exact (hstep b c i h).bind fun b c h => ih h

end Agree

/-! ## Three forms of the operations -/

/-- The operations that make a square matrix or change it. -/
inductive Operation (α : Type) : Type 1
  | new (n : ℕ)
  | identity (n : ℕ)
  | ofColumns (n : ℕ) (data : Array α)
  | fill {σ : Type} (f : (r c : ℕ) → σ → α × σ) (s : σ)
  | fillRows (values : List α)
  | scale (a : α)
  | set (r c : ℕ) (a : α)

variable [Scalar α]

namespace Checked.MatrixSlice

/-- The zero matrix. -/
def zero (α : Type) [Scalar α] (n : ℕ) : MatrixSlice α := ⟨n, Array.replicate (n * n) 0⟩

/-- The identity matrix, by calls. -/
def identity (α : Type) [Scalar α] (n : ℕ) : Except Fault (MatrixSlice α) := do
  return (← (zero α n).fill (fun r c s => (if r = c then 1 else 0, s)) ()).1

omit [Scalar α] in
/-- A copy of the data, whose length is checked. -/
def ofColumns (n : ℕ) (data : Array α) : Except Fault (MatrixSlice α) := do
  require (data.size = n * n)
  return ⟨n, data⟩

/-- The slice after an operation. -/
def perform (m : MatrixSlice α) : Operation α → Except Fault (MatrixSlice α)
  | .new n => .ok (zero α n)
  | .identity n => identity α n
  | .ofColumns n data => ofColumns n data
  | .fill f s => do return (← m.fill f s).1
  | .fillRows values => m.fillRows values
  | .scale a => .ok { m with array := Slice.scale a m.array }
  | .set r c a => m.write r c a

end Checked.MatrixSlice

/-- The matrix after an operation. -/
def SquareMatrix.apply (A : SquareMatrix α) : Operation α → Except Fault (SquareMatrix α)
  | .new n => .ok (.zero α n)
  | .identity n => .ok (.identity α n)
  | .ofColumns n data => SquareMatrix.ofColumns n data
  | .fill f s => .ok (A.fill fun call _ _ => callValue A.dim f s call)
  | .fillRows values => .ok (A.fillRows values.toArray)
  | .scale a => .ok (A.scale a)
  | .set r c a => A.set? r c a

namespace Table

/-- The table of a matrix. -/
def of (A : SquareMatrix α) : Table α where
  dim := A.dim
  entry r c := (A.toArray[c * A.dim + r]?).getD 0

/-- What an operation does to the entries. Data of another length than that of a matrix and indices
outside of it are refused. -/
def specify (t : Table α) : Operation α → Except Fault (Table α)
  | .new n => .ok ⟨n, fun _ _ => 0⟩
  | .identity n => .ok ⟨n, fun r c => if r = c then 1 else 0⟩
  | .ofColumns n data =>
    if data.size = n * n then .ok ⟨n, fun r c => (data[c * n + r]?).getD 0⟩
    else .error .lengthMismatch
  | .fill f s => .ok (t.fill f s)
  | .fillRows values => .ok (t.fillRows values)
  | .scale a => .ok { t with entry := fun r c => a * t.entry r c }
  | .set r c a => if r < t.dim ∧ c < t.dim then .ok (t.set r c a) else .error .outOfRange

end Table

namespace Checked

/-! ## One operation -/

section Slices

variable {m : MatrixSlice α} {t : Table α}

theorem represents_zero (n : ℕ) : Represents (MatrixSlice.zero α n) ⟨n, fun _ _ => 0⟩ where
  dim := rfl
  size := Array.size_replicate
  entry r c hr hc := by
    rw [MatrixSlice.zero, Array.getElem?_replicate, if_pos (position_lt hr hc)]

theorem represents_identity (n : ℕ) :
    ∃ m, MatrixSlice.identity α n = .ok m ∧
      Represents m ⟨n, fun r c => if r = c then 1 else 0⟩ := by
  obtain ⟨m, hm, hfill⟩ := (represents_zero (α := α) n).fill
    (fun r c s => (if r = c then 1 else 0, s)) ()
  refine ⟨m, ?_, hfill.congr rfl fun r c hr _ => ?_⟩
  · rw [MatrixSlice.identity, hm]
    rfl
  · exact (congrArg Prod.fst (call_eq _ _ hr)).symm

omit [Scalar α] in
theorem ofColumns_eq (n : ℕ) (data : Array α) : MatrixSlice.ofColumns n data
    = if data.size = n * n then .ok ⟨n, data⟩ else .error .lengthMismatch := by
  unfold MatrixSlice.ofColumns require
  split <;> rfl

theorem represents_ofColumns {n : ℕ} {data : Array α} (h : data.size = n * n) :
    Represents ⟨n, data⟩ ⟨n, fun r c => (data[c * n + r]?).getD 0⟩ where
  dim := rfl
  size := h
  entry r c hr hc := by
    dsimp only
    rw [Array.getElem?_eq_getElem (h ▸ position_lt hr hc), Option.getD_some]

theorem Represents.scale (h : Represents m t) (a : α) :
    Represents { m with array := Slice.scale a m.array }
      { t with entry := fun r c => a * t.entry r c } := by
  have hscale : Slice.scale a m.array = m.array.map (a * ·) := by
    unfold Slice.scale Spectrahedron.scale
    rw [Vector.toArray_map]
  refine ⟨h.dim, ?_, fun r c hr hc => ?_⟩
  · rw [hscale, Array.size_map]
    exact h.size
  · rw [hscale, Array.getElem?_map]
    dsimp only at hr hc ⊢
    rw [h.entry r c hr hc, Option.map_some]

/-- **One operation** on a slice does what it does to the table. -/
theorem Represents.perform (h : Represents m t) (op : Operation α) :
    Agree Represents (m.perform op) (t.specify op) := by
  cases op with
  | new n => exact represents_zero n
  | identity n =>
    obtain ⟨m', hm', hrep⟩ := represents_identity (α := α) n
    unfold MatrixSlice.perform
    dsimp only
    rw [hm']
    exact hrep
  | ofColumns n data =>
    unfold MatrixSlice.perform Table.specify
    dsimp only
    rw [ofColumns_eq]
    split
    · rename_i hsize
      exact represents_ofColumns hsize
    · rfl
  | fill f s =>
    obtain ⟨m', hm', hrep⟩ := h.fill f s
    unfold MatrixSlice.perform
    dsimp only
    rw [hm']
    exact hrep
  | fillRows values =>
    obtain ⟨m', hm', hrep⟩ := h.fillRows values
    unfold MatrixSlice.perform
    dsimp only
    rw [hm']
    exact hrep
  | scale a => exact h.scale a
  | set r c a =>
    unfold MatrixSlice.perform Table.specify
    dsimp only
    split
    · rename_i hin
      obtain ⟨m', hm', hrep⟩ := h.write hin.1 hin.2 a
      rw [hm']
      exact hrep
    · rename_i hout
      rw [MatrixSlice.write_eq_error (h.dim ▸ hout)]
      rfl

end Slices

section Matrices

variable {A : SquareMatrix α} {t : Table α}

omit [Scalar α] in
theorem represents_of_iff :
    Represents (.of A) t ↔ A.dim = t.dim ∧ ∀ r c : Fin A.dim, A.entries.get r c = t.entry r c := by
  obtain ⟨n, entry⟩ := t
  constructor
  · rintro ⟨rfl, -, hentry⟩
    refine ⟨rfl, fun r c => Option.some.inj ?_⟩
    rw [← hentry r c r.isLt c.isLt]
    exact (A.entries.getElem_toArray r c).symm
  · rintro ⟨rfl, hentry⟩
    refine ⟨rfl, A.size_toArray, fun r c hr hc => ?_⟩
    exact (A.entries.getElem_toArray ⟨r, hr⟩ ⟨c, hc⟩).trans (congrArg some (hentry _ _))

theorem represents_of (A : SquareMatrix α) : Represents (.of A) (.of A) := by
  refine represents_of_iff.2 ⟨rfl, fun r c => ?_⟩
  unfold Table.of SquareMatrix.toArray
  dsimp only
  rw [A.entries.getElem_toArray, Option.getD_some]

omit [Scalar α] in
theorem read_of (A : SquareMatrix α) (r c : ℕ) : (MatrixSlice.of A).read r c = A.get? r c := by
  unfold SquareMatrix.get?
  split
  · rename_i hin
    exact entry_mat A.entries ⟨r, hin.1⟩ ⟨c, hin.2⟩
  · rename_i hout
    exact MatrixSlice.read_eq_error hout

omit [Scalar α] in
/-- A slice is determined by the entries that it holds. -/
theorem Represents.unique {m m' : MatrixSlice α} (h : Represents m t) (h' : Represents m' t) :
    m = m' := by
  obtain ⟨n, a⟩ := m
  obtain ⟨n', a'⟩ := m'
  obtain rfl : n = t.dim := h.dim
  obtain rfl : n' = t.dim := h'.dim
  refine congrArg (MatrixSlice.mk t.dim) (Array.ext (h.size.trans h'.size.symm) fun i hi hi' => ?_)
  -- Element `i` of a slice is entry `(i % n, i / n)`.
  have hpos : i < t.dim * t.dim := h.size ▸ hi
  have hdim : 0 < t.dim := Nat.pos_of_mul_pos_right (Nat.zero_lt_of_lt hpos)
  have hr : i % t.dim < t.dim := Nat.mod_lt i hdim
  have hc : i / t.dim < t.dim := Nat.div_lt_of_lt_mul hpos
  have hentry := (h.entry _ _ hr hc).trans (h'.entry _ _ hr hc).symm
  rw [Nat.mul_comm, Nat.div_add_mod, Array.getElem?_eq_getElem hi,
    Array.getElem?_eq_getElem hi'] at hentry
  exact Option.some.inj hentry

/-- **One operation** on a matrix does what it does to the table. -/
theorem Represents.apply (h : Represents (.of A) t) (op : Operation α) :
    Agree (fun B t => Represents (.of B) t) (A.apply op) (t.specify op) := by
  obtain ⟨n, entry⟩ := t
  obtain ⟨rfl, hentry⟩ := represents_of_iff.1 h
  unfold SquareMatrix.apply Table.specify
  cases op with
  | new n => exact represents_of_iff.2 ⟨rfl, fun r c => Mat.get_ofFn _ r c⟩
  | identity n =>
    refine represents_of_iff.2 ⟨rfl, fun r c => (Mat.get_identity r c).trans ?_⟩
    exact if_congr Fin.ext_iff rfl rfl
  | ofColumns n data =>
    dsimp only
    unfold SquareMatrix.ofColumns Mat.ofArray?
    split
    · rename_i hsize
      refine represents_of_iff.2 ⟨rfl, fun r c => ?_⟩
      have hget := (Mat.ofArray data hsize).getElem_toArray r c
      rw [Mat.toArray_ofArray] at hget
      dsimp only
      rw [hget, Option.getD_some]
    · rfl
  | fill f s => exact represents_of_iff.2 ⟨rfl, fun r c => A.get_fill _ r c⟩
  | fillRows values =>
    refine represents_of_iff.2 ⟨rfl, fun r c => (A.get_fillRows _ r c).trans ?_⟩
    rw [List.getElem?_toArray]
    exact congrArg _ (hentry r c)
  | scale a =>
    refine represents_of_iff.2 ⟨rfl, fun r c => (Mat.get_scale a A.entries r c).trans ?_⟩
    exact congrArg (a * ·) (hentry r c)
  | set r c a =>
    dsimp only
    unfold SquareMatrix.set?
    split
    · refine represents_of_iff.2 ⟨rfl, fun r' c' => (Mat.get_set _ _ _ _ _ _).trans ?_⟩
      rw [hentry]
      refine if_congr ?_ rfl rfl
      rw [Fin.ext_iff, Fin.ext_iff, eq_comm, eq_comm (a := c)]
    · rfl

/-! ## Sequences of operations -/

theorem Represents.foldlM_perform {m : MatrixSlice α} (h : Represents m t)
    (ops : List (Operation α)) :
    Agree Represents (ops.foldlM MatrixSlice.perform m) (ops.foldlM Table.specify t) :=
  Agree.foldlM (fun _ _ op h => h.perform op) h ops

theorem Represents.foldlM_apply (h : Represents (.of A) t) (ops : List (Operation α)) :
    Agree (fun B t => Represents (.of B) t) (ops.foldlM SquareMatrix.apply A)
      (ops.foldlM Table.specify t) :=
  Agree.foldlM (R := fun B t => Represents (.of B) t) (fun _ _ op h => h.apply op) h ops

/-- Operations on the slice of a matrix leave the slice of what they make of the matrix. -/
theorem foldlM_perform_of (A : SquareMatrix α) (ops : List (Operation α)) :
    ops.foldlM MatrixSlice.perform (.of A) = (ops.foldlM SquareMatrix.apply A).map .of :=
  ((represents_of A).foldlM_perform ops).eq_map ((represents_of A).foldlM_apply ops)
    fun _ _ _ hm hB => hm.unique hB

end Matrices

/-! ## Traces -/

theorem identity_eq (n : ℕ) :
    MatrixSlice.identity α n = .ok (.of (SquareMatrix.identity α n)) := by
  obtain ⟨m, hm, hrep⟩ := represents_identity (α := α) n
  have htyped : Represents (.of (SquareMatrix.identity α n)) ⟨n, fun r c => if r = c then 1 else 0⟩ :=
    (represents_of (.zero α n)).apply (.identity n)
  rw [hm, hrep.unique htyped]

namespace MatrixSlice

/-- The trace. -/
def trace (m : MatrixSlice α) : Except Fault α :=
  loop 0 m.dim (fun i s => do return s + (← m.read i i)) 0

/-- The trace of the product with a matrix of the same dimension. -/
def traceProduct (m m' : MatrixSlice α) : Except Fault α := do
  require (m.dim = m'.dim)
  Checked.traceProduct m.dim m.array m'.array

theorem trace_of (A : SquareMatrix α) : (of A).trace = .ok A.trace := by
  refine loop_finRange (f := fun s i => s + A.entries.get i i) id (fun s i => ?_) 0
  rw [read_of, A.get?_eq]
  rfl

theorem traceProduct_of (A B : SquareMatrix α) (h : B.dim = A.dim) :
    (of A).traceProduct (of B) = A.traceProduct B := by
  obtain ⟨n, A⟩ := A
  obtain ⟨_, B⟩ := B
  cases h
  unfold traceProduct SquareMatrix.traceProduct
  rw [require_of (by rfl), dif_pos rfl]
  exact traceProduct_eq A B

end MatrixSlice

end Checked

namespace SquareMatrix

open Checked

/-- Listed values are those of a closure that reads them one after the other. -/
theorem fillCalls_eq_apply (A : SquareMatrix α) {values : Array α}
    (h : A.dim * A.dim ≤ values.size) :
    A.fillCalls values = A.apply (.fill (fun _ _ k => ((values[k]?).getD 0, k + 1)) 0) := by
  have hstate : ∀ k, stateBefore A.dim (fun _ _ k => ((values[k]?).getD 0, k + 1)) 0 k = k := by
    intro k
    induction k with
    | zero => rfl
    | succ k ih => rw [stateBefore, ih]
  unfold fillCalls apply fill
  rw [dif_pos h]
  simp only [callValue, hstate]
  refine congrArg (fun B : Mat α A.dim A.dim => Except.ok (SquareMatrix.mk A.dim B))
    (Mat.ext_get fun r c => ?_)
  rw [Mat.get_ofFn, Mat.get_ofFn,
    Array.getElem?_eq_getElem (Nat.lt_of_lt_of_le (Mat.index_lt r c) h)]
  rfl

/-- A list in rows is the transpose of the same list in columns. -/
theorem get?_fillRows (A : SquareMatrix α) {values : List α}
    (h : values.length = A.dim * A.dim) :
    ∃ B, ofColumns A.dim values.toArray = .ok B ∧
      ∀ r c, (A.fillRows values.toArray).get? r c = B.get? c r := by
  have hsize : values.toArray.size = A.dim * A.dim := by rw [List.size_toArray, h]
  let B : SquareMatrix α := ⟨A.dim, Mat.ofArray values.toArray hsize⟩
  have hrows : Represents (.of (A.fillRows values.toArray)) ((Table.of A).fillRows values) :=
    (represents_of A).apply (.fillRows values)
  have hcolumns : Represents (.of B) ⟨A.dim, fun r c => (values.toArray[c * A.dim + r]?).getD 0⟩ :=
    represents_ofColumns hsize
  refine ⟨B, ?_, fun r c => ?_⟩
  · unfold ofColumns Mat.ofArray?
    rw [dif_pos hsize]
    rfl
  · by_cases hin : r < A.dim ∧ c < A.dim
    · have hlt : r * A.dim + c < values.length := h ▸ position_lt hin.2 hin.1
      have hrow : ((Table.of A).fillRows values).entry r c = values[r * A.dim + c] :=
        congrArg (Option.getD · _) (List.getElem?_eq_getElem hlt)
      have hcolumn : (values.toArray[r * A.dim + c]?).getD 0 = values[r * A.dim + c] := by
        rw [List.getElem?_toArray, List.getElem?_eq_getElem hlt, Option.getD_some]
      rw [← read_of, ← read_of, hrows.read_eq hin.1 hin.2, hcolumns.read_eq hin.2 hin.1, hrow]
      exact congrArg Except.ok hcolumn.symm
    · exact (get?_eq_error (A.fillRows values.toArray) hin).trans
        (get?_eq_error B fun h => hin h.symm).symm

/-- The trace of the product with the identity is the trace. -/
theorem traceProduct_identity (A : SquareMatrix ℝ) :
    A.traceProduct (identity ℝ A.dim) = .ok A.trace := by
  unfold traceProduct identity
  rw [dif_pos rfl]
  refine congrArg Except.ok ?_
  rw [Mat.traceProduct_eq_trace, Mat.toMatrix_identity, Matrix.mul_one]
  exact (Mat.trace_eq_trace _).symm

/-- **Operations on square matrices.** After any operations the slice is that of the typed matrix: it
has as many elements as the matrix, and holds the entries of the table, column after column; the
operations fail when those on the table do. A list in rows is the transpose of the list in columns,
the trace of a product with the identity is the trace, and an index outside of the matrix is refused. -/
theorem operations_agree (α : Type) [Scalar α] :
    (∀ (ops : List (Operation α)) (A : SquareMatrix α),
      Agree Represents (ops.foldlM MatrixSlice.perform (.of A)) (ops.foldlM Table.specify (.of A)) ∧
        ops.foldlM MatrixSlice.perform (.of A) = (ops.foldlM apply A).map .of) ∧
    (∀ (A : SquareMatrix α) (values : List α), values.length = A.dim * A.dim →
      ∃ B, ofColumns A.dim values.toArray = .ok B ∧
        ∀ r c, (A.fillRows values.toArray).get? r c = B.get? c r) ∧
    (∀ A : SquareMatrix ℝ,
      A.traceProduct (identity ℝ A.dim) = .ok A.trace ∧ (MatrixSlice.of A).trace = .ok A.trace ∧
        ∃ I, MatrixSlice.identity ℝ A.dim = .ok I ∧
          (MatrixSlice.of A).traceProduct I = .ok A.trace) ∧
    ∀ (A : SquareMatrix α) (r c : ℕ), A.dim ≤ r ∨ A.dim ≤ c →
      A.get? r c = .error .outOfRange ∧ (MatrixSlice.of A).read r c = .error .outOfRange ∧
        ∀ a, A.set? r c a = .error .outOfRange ∧
          (MatrixSlice.of A).write r c a = .error .outOfRange := by
  refine ⟨fun ops A => ⟨(represents_of A).foldlM_perform ops, foldlM_perform_of A ops⟩,
    fun A values h => A.get?_fillRows h, fun A => ⟨A.traceProduct_identity, ?trace⟩,
    fun A r c hout => ?index⟩
  case trace =>
    refine ⟨MatrixSlice.trace_of A, _, identity_eq A.dim, ?_⟩
    exact (MatrixSlice.traceProduct_of A (identity ℝ A.dim) rfl).trans A.traceProduct_identity
  case index =>
    have hnot : ¬(r < A.dim ∧ c < A.dim) := by omega
    exact ⟨A.get?_eq_error hnot, MatrixSlice.read_eq_error hnot, fun a =>
      ⟨dif_neg hnot, MatrixSlice.write_eq_error hnot a⟩⟩

/-- Four operations that make a matrix of dimension two; a list of its length; an index beyond it. -/
theorem operations_agree_two :
    (∃ m, [Operation.new 2, .fillRows [1, 2, 3], .set 0 1 5, .scale 2].foldlM MatrixSlice.perform
        (.of (zero ℝ 0)) = .ok m ∧
      m.array.size = 4 ∧ m.array[1]? = some 6 ∧ m.array[2]? = some 10) ∧
    (∃ B, ofColumns 2 #[1, 2, 3, 4] = .ok B ∧
      ∀ r c, ((zero ℝ 2).fillRows #[1, 2, 3, 4]).get? r c = B.get? c r) ∧
    (zero ℝ 2).get? 2 0 = .error .outOfRange := by
  obtain ⟨hops, htranspose, -, hindex⟩ := operations_agree ℝ
  refine ⟨?_, htranspose (zero ℝ 2) [1, 2, 3, 4] rfl, (hindex (zero ℝ 2) 2 0 (Or.inl le_rfl)).1⟩
  have hrun := (hops [.new 2, .fillRows [1, 2, 3], .set 0 1 5, .scale 2] (zero ℝ 0)).1
  cases hm : [Operation.new 2, .fillRows [1, 2, 3], .set 0 1 5, .scale 2].foldlM
      MatrixSlice.perform (.of (zero ℝ 0)) with
  | error f =>
    rw [hm] at hrun
    exact hrun.elim
  | ok m =>
    rw [hm] at hrun
    have hrep : Represents m { dim := 2, entry := _ } := hrun
    refine ⟨m, rfl, hrep.size, (hrep.entry 1 0 (by decide) (by decide)).trans ?_,
      (hrep.entry 0 1 (by decide) (by decide)).trans ?_⟩
    · norm_num [Table.set, Table.fillRows]
    · norm_num [Table.set, Table.fillRows]

end SquareMatrix

end Spectrahedron
