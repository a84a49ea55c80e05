import Spectrahedron.Proofs.Checked.Kernels
import Spectrahedron.SquareMatrix

/-!
# Checked filling

A square matrix in a slice, column after column, and the table of its entries, from which all about
the layout has been left out. The matrix is filled entry after entry: down the columns by the calls
of a closure, and along the rows from a list. A list that ends within a row ends the walk along this
row only; the walks along the later rows find it at its end.

**Theorem (`Represents.fill`, `Represents.fillRows`).** Filling does not fail. In a matrix of
dimension `n`, entry `(r, c)` gets the value of call number `c * n + r`; from a list it gets element
number `r * n + c`, if there is one, and is left otherwise.
-/

namespace Spectrahedron

variable {α σ : Type}

/-! ## Positions -/

section Positions

variable {n r c : ℕ}

theorem mul_add_div_of_lt (hr : r < n) : (c * n + r) / n = c := by
  rw [Nat.mul_comm, Nat.mul_add_div (Nat.zero_lt_of_lt hr), Nat.div_eq_of_lt hr, Nat.add_zero]

/-- Different entries of a column-major matrix have different positions. -/
theorem position_inj {r' c' : ℕ} (hr : r < n) (hr' : r' < n) :
    c * n + r = c' * n + r' ↔ r = r' ∧ c = c' := by
  constructor
  · intro h
    have hmod := congrArg (· % n) h
    have hdiv := congrArg (· / n) h
    rw [Nat.mul_add_mod_of_lt hr, Nat.mul_add_mod_of_lt hr'] at hmod
    rw [mul_add_div_of_lt hr, mul_add_div_of_lt hr'] at hdiv
    exact ⟨hmod, hdiv⟩
  · rintro ⟨rfl, rfl⟩
    rfl

theorem position_lt (hr : r < n) (hc : c < n) : c * n + r < n * n :=
  Mat.index_lt (⟨r, hr⟩ : Fin n) (⟨c, hc⟩ : Fin n)

end Positions

/-! ## Closures -/

/-- The state in which a closure is called for the `k`-th time, counted from zero, by calls that go
down the columns of a matrix of dimension `n`. -/
def stateBefore (n : ℕ) (f : (r c : ℕ) → σ → α × σ) (s : σ) : ℕ → σ
  | 0 => s
  | k + 1 => (f (k % n) (k / n) (stateBefore n f s k)).2

/-- The value of call number `k`. -/
def callValue (n : ℕ) (f : (r c : ℕ) → σ → α × σ) (s : σ) (k : ℕ) : α :=
  (f (k % n) (k / n) (stateBefore n f s k)).1

/-- Call number `c * n + r` is the one for entry `(r, c)`. -/
theorem call_eq {n r c : ℕ} (f : (r c : ℕ) → σ → α × σ) (s : σ) (hr : r < n) :
    f r c (stateBefore n f s (c * n + r))
      = (callValue n f s (c * n + r), stateBefore n f s (c * n + r + 1)) := by
  rw [callValue, stateBefore, Nat.mul_add_mod_of_lt hr, mul_add_div_of_lt hr]

/-! ## Tables -/

/-- A square matrix as a function of row and column. Only the entries within the dimension count. -/
structure Table (α : Type) where
  dim : ℕ
  entry : (r c : ℕ) → α

namespace Table

/-- The table with one entry replaced. -/
def set (t : Table α) (r c : ℕ) (a : α) : Table α where
  dim := t.dim
  entry r' c' := if r' = r ∧ c' = c then a else t.entry r' c'

/-- The table with the value of a call in each entry. -/
def fill (t : Table α) (f : (r c : ℕ) → σ → α × σ) (s : σ) : Table α where
  dim := t.dim
  entry r c := callValue t.dim f s (c * t.dim + r)

/-- The table filled from a list, row after row, until the list ends. -/
def fillRows (t : Table α) (values : List α) : Table α where
  dim := t.dim
  entry r c := (values[r * t.dim + c]?).getD (t.entry r c)

/-- The table on a walk that gives new values to the entries in the order of their numbers, when
those before number `k` have got theirs. -/
def onWalk (t : Table α) (number : (r c : ℕ) → ℕ) (new : (r c : ℕ) → α) (k : ℕ) : Table α where
  dim := t.dim
  entry r c := if number r c < k then new r c else t.entry r c

@[simp] theorem onWalk_zero (t : Table α) (number : (r c : ℕ) → ℕ) (new : (r c : ℕ) → α) :
    t.onWalk number new 0 = t := by
  simp [onWalk]

end Table

namespace Checked

/-! ## Matrices in slices -/

/-- A square matrix in a slice, column after column. -/
structure MatrixSlice (α : Type) where
  dim : ℕ
  array : Array α

namespace MatrixSlice

/-- The slice of a matrix. -/
def of (A : SquareMatrix α) : MatrixSlice α := ⟨A.dim, A.toArray⟩

/-- The entry in row `r` and column `c`. -/
def read (m : MatrixSlice α) (r c : ℕ) : Except Fault α := entry m.dim m.dim m.array r c

/-- The entry in row `r` and column `c` replaced. -/
def write (m : MatrixSlice α) (r c : ℕ) (a : α) : Except Fault (MatrixSlice α) := do
  return { m with array := ← setEntry m.dim m.dim m.array r c a }

theorem read_eq_error {m : MatrixSlice α} {r c : ℕ} (h : ¬(r < m.dim ∧ c < m.dim)) :
    m.read r c = .error .outOfRange := by
  unfold read entry position
  rw [if_neg h]
  rfl

theorem write_eq_error {m : MatrixSlice α} {r c : ℕ} (h : ¬(r < m.dim ∧ c < m.dim)) (a : α) :
    m.write r c a = .error .outOfRange := by
  unfold write setEntry position
  rw [if_neg h]
  rfl

/-- The entry in row `r` and column `c` replaced by a call of a closure; with the state that the call
leaves. -/
def call (f : (r c : ℕ) → σ → α × σ) (c r : ℕ) :
    MatrixSlice α × σ → Except Fault (MatrixSlice α × σ)
  | (m, s) => do
    let (a, s) := f r c s
    return (← m.write r c a, s)

/-- Every entry replaced by a call, down the columns. -/
def fill (m : MatrixSlice α) (f : (r c : ℕ) → σ → α × σ) (s : σ) :
    Except Fault (MatrixSlice α × σ) :=
  loop 0 m.dim (fun c => loop 0 m.dim (call f c)) (m, s)

/-- The entries of row `r` from column `c` on, `left` of them, replaced from the front of a list
until it ends; with what is left of the list. -/
def fillRow (r : ℕ) :
    (left c : ℕ) → MatrixSlice α × List α → Except Fault (MatrixSlice α × List α)
  | 0, _, s => .ok s
  | _ + 1, _, (m, []) => .ok (m, [])
  | left + 1, c, (m, a :: values) => do fillRow r left (c + 1) (← m.write r c a, values)

/-- The entries replaced from a list, row after row. -/
def fillRows (m : MatrixSlice α) (values : List α) : Except Fault (MatrixSlice α) := do
  return (← loop 0 m.dim (fun r => fillRow r m.dim 0) (m, values)).1

end MatrixSlice

/-- A slice holds the entries of a table. -/
structure Represents (m : MatrixSlice α) (t : Table α) : Prop where
  dim : m.dim = t.dim
  size : m.array.size = t.dim * t.dim
  entry : ∀ r c, r < t.dim → c < t.dim → m.array[c * t.dim + r]? = some (t.entry r c)

namespace Represents

variable {m : MatrixSlice α} {t : Table α}

/-- Entries outside of the dimension do not count. -/
theorem congr {t' : Table α} (h : Represents m t) (hdim : t.dim = t'.dim)
    (hentry : ∀ r c, r < t'.dim → c < t'.dim → t.entry r c = t'.entry r c) :
    Represents m t' where
  dim := h.dim.trans hdim
  size := hdim ▸ h.size
  entry r c hr hc := by
    rw [← hentry r c hr hc, ← hdim]
    exact h.entry r c (hdim ▸ hr) (hdim ▸ hc)

theorem read_eq (h : Represents m t) {r c : ℕ} (hr : r < t.dim) (hc : c < t.dim) :
    m.read r c = .ok (t.entry r c) := by
  obtain ⟨hlt, hget⟩ := Array.getElem?_eq_some_iff.1 (h.entry r c hr hc)
  unfold MatrixSlice.read Checked.entry position
  rw [h.dim, if_pos ⟨hr, hc⟩, ok_bind, read_of_lt hlt, hget]

/-- An assignment changes one entry and no other. -/
theorem write (h : Represents m t) {r c : ℕ} (hr : r < t.dim) (hc : c < t.dim) (a : α) :
    ∃ m', m.write r c a = .ok m' ∧ Represents m' (t.set r c a) := by
  have hlt : c * t.dim + r < m.array.size := h.size ▸ position_lt hr hc
  refine ⟨{ m with array := m.array.set _ a hlt }, ?_, h.dim, ?_, fun r' c' hr' hc' => ?_⟩
  · unfold MatrixSlice.write setEntry position
    rw [h.dim, if_pos ⟨hr, hc⟩, ok_bind, write_of_lt hlt]
    rfl
  · exact (Array.size_set hlt).trans h.size
  · rw [Array.getElem?_set]
    unfold Table.set at hr' hc' ⊢
    dsimp only at hr' hc' ⊢
    rw [h.entry r' c' hr' hc', ← apply_ite some]
    refine congrArg some (if_congr ?_ rfl rfl)
    rw [position_inj hr hr', eq_comm, eq_comm (a := c)]

/-- One more step of a walk. -/
theorem write_onWalk {number : (r c : ℕ) → ℕ} {new : (r c : ℕ) → α} {r c : ℕ}
    (h : Represents m (t.onWalk number new (number r c))) (hr : r < t.dim) (hc : c < t.dim)
    (hnumber : ∀ r' c', r' < t.dim → c' < t.dim → number r' c' = number r c → r' = r ∧ c' = c) :
    ∃ m', m.write r c (new r c) = .ok m' ∧
      Represents m' (t.onWalk number new (number r c + 1)) := by
  obtain ⟨m', hm', hset⟩ := h.write hr hc (new r c)
  refine ⟨m', hm', hset.congr rfl fun r' c' hr' hc' => ?_⟩
  unfold Table.set Table.onWalk
  dsimp only
  by_cases heq : r' = r ∧ c' = c
  · obtain ⟨rfl, rfl⟩ := heq
    rw [if_pos ⟨rfl, rfl⟩, if_pos (Nat.lt_succ_self _)]
  · have hne : number r' c' ≠ number r c := mt (hnumber r' c' hr' hc') heq
    rw [if_neg heq]
    exact if_congr (by omega) rfl rfl

end Represents

variable {t : Table α}

/-! ## Filling by calls -/

section Fill

variable {f : (r c : ℕ) → σ → α × σ} {s : σ}

/-- A slice and the state of a closure after `k` calls. -/
structure Called (t : Table α) (f : (r c : ℕ) → σ → α × σ) (s : σ) (k : ℕ)
    (x : MatrixSlice α × σ) : Prop where
  table : Represents x.1 (t.onWalk (fun r c => c * t.dim + r) (t.fill f s).entry k)
  state : x.2 = stateBefore t.dim f s k

theorem Called.call {r c : ℕ} {x : MatrixSlice α × σ} (h : Called t f s (c * t.dim + r) x)
    (hr : r < t.dim) (hc : c < t.dim) :
    ∃ x', MatrixSlice.call f c r x = .ok x' ∧ Called t f s (c * t.dim + r + 1) x' := by
  obtain ⟨m, _⟩ := x
  obtain ⟨hm, rfl⟩ := h
  obtain ⟨m', hm', htable⟩ := hm.write_onWalk hr hc fun _ _ hr' _ => (position_inj hr' hr).1
  refine ⟨(m', stateBefore t.dim f s (c * t.dim + r + 1)), ?_, htable, rfl⟩
  unfold MatrixSlice.call
  unfold Table.fill at hm'
  dsimp only at hm' ⊢
  rw [call_eq f s hr]
  dsimp only
  rw [hm']
  rfl

theorem Represents.fill {m : MatrixSlice α} (h : Represents m t) (f : (r c : ℕ) → σ → α × σ)
    (s : σ) :
    ∃ m', m.fill f s = .ok (m', stateBefore t.dim f s (t.dim * t.dim)) ∧
      Represents m' (t.fill f s) := by
  have hstart : Called t f s (0 * t.dim) (m, s) := by
    rw [Nat.zero_mul]
    exact ⟨by rwa [Table.onWalk_zero], rfl⟩
  -- Down column `c` the number of the call goes from `c * n` to `(c + 1) * n`.
  have hcolumn : ∀ c x, 0 ≤ c → c < t.dim → Called t f s (c * t.dim) x →
      ∃ x', loop 0 t.dim (MatrixSlice.call f c) x = .ok x' ∧
        Called t f s ((c + 1) * t.dim) x' := by
    intro c x _ hc hx
    rw [Nat.succ_mul]
    exact exists_loop_eq_ok (fun r => Called t f s (c * t.dim + r)) (Nat.zero_le _) hx
      fun r x _ hr hx => hx.call hr hc
  obtain ⟨⟨m', _⟩, hloop, hm', rfl⟩ :=
    exists_loop_eq_ok (fun c => Called t f s (c * t.dim)) (Nat.zero_le _) hstart hcolumn
  refine ⟨m', ?_, hm'.congr rfl fun r c hr hc => if_pos (position_lt hr hc)⟩
  unfold MatrixSlice.fill
  rw [h.dim]
  exact hloop

end Fill

/-! ## Filling from a list -/

section FillRows

variable {values : List α}

/-- A slice and the rest of a list after a walk over `k` entries. -/
structure Walked (t : Table α) (values : List α) (k : ℕ) (x : MatrixSlice α × List α) : Prop where
  table : Represents x.1 (t.onWalk (fun r c => r * t.dim + c) (t.fillRows values).entry k)
  rest : x.2 = values.drop k

/-- The walk along entries for which the list has no elements does nothing. -/
theorem Walked.of_le {k k' : ℕ} {m : MatrixSlice α} (h : Walked t values k (m, []))
    (hle : k ≤ k') : Walked t values k' (m, []) := by
  have hlength : values.length ≤ k := List.drop_eq_nil_iff.1 h.rest.symm
  refine ⟨h.table.congr rfl fun r c _ _ => ?_, (List.drop_eq_nil_of_le (hlength.trans hle)).symm⟩
  unfold Table.onWalk Table.fillRows
  dsimp only
  by_cases hk : r * t.dim + c < k
  · rw [if_pos hk, if_pos (hk.trans_le hle)]
  · rw [if_neg hk, List.getElem?_eq_none (hlength.trans (not_lt.1 hk)), Option.getD_none, ite_self]

theorem Walked.write {r c : ℕ} {m : MatrixSlice α} {a : α} {rest : List α}
    (h : Walked t values (r * t.dim + c) (m, a :: rest)) (hr : r < t.dim) (hc : c < t.dim) :
    ∃ m', m.write r c a = .ok m' ∧ Walked t values (r * t.dim + c + 1) (m', rest) := by
  obtain ⟨hm, hrest⟩ := h
  dsimp only at hm hrest
  have hvalue : (t.fillRows values).entry r c = a := by
    unfold Table.fillRows
    dsimp only
    rw [← List.head?_drop, ← hrest, List.head?_cons, Option.getD_some]
  obtain ⟨m', hm', htable⟩ :=
    hm.write_onWalk hr hc fun _ _ _ hc' h => ((position_inj hc' hc).1 h).symm
  refine ⟨m', hvalue ▸ hm', htable, ?_⟩
  rw [← List.tail_drop, ← hrest, List.tail_cons]

theorem Walked.fillRow {r : ℕ} (hr : r < t.dim) {left c : ℕ} (hleft : c + left = t.dim)
    {x : MatrixSlice α × List α} (h : Walked t values (r * t.dim + c) x) :
    ∃ x', MatrixSlice.fillRow r left c x = .ok x' ∧ Walked t values ((r + 1) * t.dim) x' := by
  rw [Nat.succ_mul]
  induction left generalizing c x with
  | zero =>
    obtain rfl : c = t.dim := hleft
    exact ⟨x, rfl, h⟩
  | succ left ih =>
    -- A list at its end stays there through the rest of the row.
    obtain ⟨m, _ | ⟨a, rest⟩⟩ := x
    · exact ⟨(m, []), rfl, h.of_le (by omega)⟩
    · obtain ⟨m', hm', hwalked⟩ := h.write hr (by omega)
      obtain ⟨x', hrow, hx'⟩ := ih (c := c + 1) (by omega) hwalked
      refine ⟨x', ?_, hx'⟩
      rw [MatrixSlice.fillRow, hm', ok_bind]
      exact hrow

theorem Represents.fillRows {m : MatrixSlice α} (h : Represents m t) (values : List α) :
    ∃ m', m.fillRows values = .ok m' ∧ Represents m' (t.fillRows values) := by
  have hstart : Walked t values (0 * t.dim) (m, values) := by
    rw [Nat.zero_mul]
    exact ⟨by rwa [Table.onWalk_zero], rfl⟩
  obtain ⟨⟨m', rest⟩, hloop, hm', -⟩ := exists_loop_eq_ok (fun r => Walked t values (r * t.dim))
    (Nat.zero_le _) hstart fun r x _ hr hx => hx.fillRow hr (Nat.zero_add _)
  refine ⟨m', ?_, hm'.congr rfl fun r c hr hc => if_pos (position_lt hc hr)⟩
  unfold MatrixSlice.fillRows
  rw [h.dim, hloop]
  rfl

end FillRows

end Checked

end Spectrahedron
