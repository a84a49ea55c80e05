import Mathlib.Data.List.Intervals
import Spectrahedron.Proofs.Linear
import Spectrahedron.Workspace

/-!
# Checked access

An algorithm that keeps its data in slices has many ways to break off: lengths that do not fit
together, a slice that is split behind its end, an index outside of its range, a remainder by zero.
Here each of these is an operation that checks, and answers with a fault. Vectors and matrices carry
their lengths in their types; on the slices that hold them, the operations with indices in range do
not fail.

**Theorem (`loop_finRange`).** A loop whose every step succeeds on slices that hold typed data is
the fold of the typed steps.
-/

namespace Spectrahedron.Checked

variable {α β σ τ : Type} {m n : ℕ}

/-! ## Operations -/

/-- A condition on lengths that a caller has promised. -/
def require (p : Prop) [Decidable p] : Except Fault Unit :=
  if p then .ok () else .error .lengthMismatch

/-- The element at an index. -/
def read (a : Array α) (i : ℕ) : Except Fault α :=
  if h : i < a.size then .ok a[i] else .error .outOfRange

/-- The slice with the element at an index replaced. -/
def write (a : Array α) (i : ℕ) (x : α) : Except Fault (Array α) :=
  if h : i < a.size then .ok (a.set i x h) else .error .outOfRange

/-- The first `k` elements, and the others. -/
def split (a : Array α) (k : ℕ) : Except Fault (Array α × Array α) :=
  if k ≤ a.size then .ok (a.extract 0 k, a.extract k a.size) else .error .outOfRange

/-- The elements from index `start` to before index `stop`. -/
def part (a : Array α) (start stop : ℕ) : Except Fault (Array α) :=
  if start ≤ stop ∧ stop ≤ a.size then .ok (a.extract start stop) else .error .outOfRange

/-- The difference of two indices. -/
def subtract (i k : ℕ) : Except Fault ℕ :=
  if k ≤ i then .ok (i - k) else .error .outOfRange

/-- The remainder of a division. -/
def remainder (k divisor : ℕ) : Except Fault ℕ :=
  if divisor = 0 then .error .outOfRange else .ok (k % divisor)

/-- The position of entry `(r, c)` of an `m` by `n` matrix. -/
def position (m n r c : ℕ) : Except Fault ℕ :=
  if r < m ∧ c < n then .ok (c * m + r) else .error .outOfRange

/-- Entry `(r, c)` of an `m` by `n` matrix in a slice. -/
def entry (m n : ℕ) (mat : Array α) (r c : ℕ) : Except Fault α := do
  read mat (← position m n r c)

/-- The slice of an `m` by `n` matrix with entry `(r, c)` replaced. -/
def setEntry (m n : ℕ) (mat : Array α) (r c : ℕ) (x : α) : Except Fault (Array α) := do
  write mat (← position m n r c) x

/-- The steps of the indices from `start` to before `stop`, one after the other. -/
def loop (start stop : ℕ) (step : ℕ → σ → Except Fault σ) (s : σ) : Except Fault σ :=
  (List.Ico start stop).foldlM (fun s i => step i s) s

/-! ## Slices that hold vectors and matrices -/

@[simp] theorem ok_bind (a : σ) (f : σ → Except Fault τ) : (Except.ok a >>= f) = f a := rfl

@[simp] theorem pure_eq_ok (a : σ) : (pure a : Except Fault σ) = .ok a := rfl

theorem require_of {p : Prop} [Decidable p] (h : p) : require p = .ok () := if_pos h

theorem read_of_lt {a : Array α} {i : ℕ} (h : i < a.size) : read a i = .ok a[i] := dif_pos h

theorem write_of_lt {a : Array α} {i : ℕ} (h : i < a.size) (x : α) :
    write a i x = .ok (a.set i x h) := dif_pos h

theorem subtract_of_le {i k : ℕ} (h : k ≤ i) : subtract i k = .ok (i - k) := if_pos h

theorem remainder_of_pos {k divisor : ℕ} (h : 0 < divisor) :
    remainder k divisor = .ok (k % divisor) := if_neg h.ne'

theorem read_vector (x : Vector α n) (i : Fin n) : read x.toArray i = .ok (x.get i) :=
  read_of_lt (by rw [Vector.size_toArray]; exact i.isLt)

theorem write_vector (x : Vector α n) (i : Fin n) (a : α) :
    write x.toArray i a = .ok (Vec.setEntry x i a).toArray := by
  rw [write_of_lt (by rw [Vector.size_toArray]; exact i.isLt)]
  rfl

theorem position_eq (r : Fin m) (c : Fin n) : position m n r c = .ok (Mat.index r c).val :=
  if_pos ⟨r.isLt, c.isLt⟩

theorem entry_mat (A : Mat α m n) (r : Fin m) (c : Fin n) :
    entry m n A.toArray r c = .ok (A.get r c) := by
  rw [entry, position_eq]
  exact read_vector A.data _

theorem setEntry_mat (A : Mat α m n) (r : Fin m) (c : Fin n) (a : α) :
    setEntry m n A.toArray r c a = .ok (A.set r c a).toArray := by
  rw [setEntry, position_eq]
  exact write_vector A.data _ a

/-- The entry of a matrix that is read by its position in the slice. -/
theorem read_index (A : Mat α m n) (r : Fin m) (c : Fin n) :
    read A.toArray (c * m + r) = .ok (A.get r c) := read_vector A.data (Mat.index r c)

theorem write_index (A : Mat α m n) (r : Fin m) (c : Fin n) (a : α) :
    write A.toArray (c * m + r) a = .ok (A.set r c a).toArray :=
  write_vector A.data (Mat.index r c) a

theorem toArray_window {a : Array α} {start len : ℕ} (h : start + len ≤ a.size) :
    (Workspace.window a start len h).toArray = a.extract start (start + len) := by
  refine Array.ext ?_ fun i hi hi' => ?_
  · simp only [Vector.size_toArray, Array.size_extract]
    omega
  · rw [Array.getElem_extract]
    exact Workspace.getElem_window a start len h i (by simpa using hi)

/-- Splitting the rest of a slice shows the next window. -/
theorem split_rest {a : Array α} {start len : ℕ} (h : start + len ≤ a.size) :
    split (Workspace.rest a start) len
      = .ok ((Workspace.window a start len h).toArray, Workspace.rest a (start + len)) := by
  have hsize : len ≤ (Workspace.rest a start).size := by
    simp only [Workspace.rest, Array.size_extract]
    omega
  rw [split, if_pos hsize, toArray_window]
  simp only [Workspace.rest, Array.extract_extract, Array.size_extract]
  congr 3 <;> omega

theorem split_start {a : Array α} {len : ℕ} (h : 0 + len ≤ a.size) :
    split a len = .ok ((Workspace.window a 0 len h).toArray, Workspace.rest a len) := by
  have hsplit := split_rest h
  rwa [Workspace.rest, Array.extract_size, Nat.zero_add] at hsplit

theorem split_append {x y : Array α} {k : ℕ} (h : x.size = k) :
    split (x ++ y) k = .ok (x, y) := by
  subst h
  rw [split, if_pos (by simp)]
  simp

theorem split_whole {a : Array α} {k : ℕ} (h : a.size = k) : split a k = .ok (a, #[]) := by
  rw [← split_append h, Array.append_empty]

theorem part_of_split {a x y : Array α} {k : ℕ} (h : split a k = .ok (x, y)) :
    part a 0 k = .ok x := by
  unfold split at h
  split at h
  · rename_i hk
    cases h
    exact if_pos ⟨Nat.zero_le k, hk⟩
  · cases h

theorem part_whole (a : Array α) : part a 0 a.size = .ok a := by
  rw [part, if_pos ⟨Nat.zero_le _, le_rfl⟩, Array.extract_size]

/-! ## Loops -/

section Loops

variable {start stop : ℕ} {step : ℕ → σ → Except Fault σ}

theorem loop_succ (hle : start ≤ stop) (s : σ) :
    loop start (stop + 1) step s = loop start stop step s >>= step stop := by
  unfold loop
  rw [List.Ico.succ_top hle, List.foldlM_append]
  refine bind_congr fun s' => ?_
  exact bind_pure _

/-- A loop does not fail if its steps do not where an invariant holds, which they keep. -/
theorem exists_loop_eq_ok (P : ℕ → σ → Prop) {s : σ} (hle : start ≤ stop) (hstart : P start s)
    (hstep : ∀ i s, start ≤ i → i < stop → P i s → ∃ s', step i s = .ok s' ∧ P (i + 1) s') :
    ∃ s', loop start stop step s = .ok s' ∧ P stop s' := by
  induction stop, hle using Nat.le_induction with
  | base =>
    refine ⟨s, ?_, hstart⟩
    rw [loop, List.Ico.self_empty]
    rfl
  | succ stop hle ih =>
    obtain ⟨s', hloop, hs'⟩ := ih fun i s hi hlt => hstep i s hi (Nat.lt_succ_of_lt hlt)
    rw [loop_succ hle, hloop]
    exact hstep stop s' hle (Nat.lt_succ_self stop) hs'

/-- A loop over all indices of a vector is the fold of the typed steps. -/
theorem loop_finRange {f : τ → Fin n → τ} (view : τ → σ)
    (hstep : ∀ t (i : Fin n), step i (view t) = .ok (view (f t i))) (t : τ) :
    loop 0 n step (view t) = .ok (view (Fin.foldl n f t)) := by
  induction n with
  | zero => rfl
  | succ n ih =>
    rw [loop_succ (Nat.zero_le n), Fin.foldl_succ_last, ih fun t i => hstep t i.castSucc, ok_bind]
    exact hstep _ (Fin.last n)

/-- A loop over the indices before `k` is the fold of the steps before `k`. -/
theorem loop_finRange_lt {f : τ → Fin n → τ} (view : τ → σ) {k : ℕ} (hk : k ≤ n)
    (hstep : ∀ t (i : Fin n), i.val < k → step i (view t) = .ok (view (f t i))) (t : τ) :
    loop 0 k step (view t)
      = .ok (view (Fin.foldl n (fun t i => if i.val < k then f t i else t) t)) := by
  induction n with
  | zero =>
    obtain rfl : k = 0 := Nat.le_zero.1 hk
    rfl
  | succ n ih =>
    rcases Nat.le_succ_iff.1 hk with hle | rfl
    · rw [ih hle fun t i hi => hstep t i.castSucc hi, Fin.foldl_succ_last]
      exact congrArg (fun t => Except.ok (view t)) (if_neg (Nat.not_lt.2 hle)).symm
    · refine loop_finRange view (fun t i => ?_) t
      rw [hstep t i i.isLt, if_pos i.isLt]

theorem loop_shift (s : σ) :
    loop (start + 1) (stop + 1) step s = loop start stop (fun i => step (i + 1)) s := by
  unfold loop
  rw [← List.Ico.map_add, List.foldlM_map]
  simp only [Nat.add_comm 1]

/-- A loop over the indices of a list is the fold over the list. -/
theorem loop_map {f : τ → β → τ} (view : τ → σ) {l : List β} {index : β → ℕ}
    (hl : l.map index = List.Ico start stop)
    (hstep : ∀ t, ∀ b ∈ l, step (index b) (view t) = .ok (view (f t b))) (t : τ) :
    loop start stop step (view t) = .ok (view (l.foldl f t)) := by
  unfold loop
  rw [← hl]
  clear hl
  induction l generalizing t with
  | nil => rfl
  | cons b l ih =>
    rw [List.map_cons, List.foldlM_cons, hstep t b List.mem_cons_self, ok_bind, List.foldl_cons]
    exact ih (fun t b hb => hstep t b (List.mem_cons_of_mem _ hb)) _

end Loops

theorem map_val_finRange (n : ℕ) : (List.finRange n).map Fin.val = List.Ico 0 n := by
  rw [List.Ico.zero_bot]
  exact List.map_coe_finRange_eq_range

/-- The indices behind `i`. -/
theorem map_val_filter_lt (i : Fin n) :
    ((List.finRange n).filter (i < ·)).map Fin.val = List.Ico (i + 1) n := by
  have h := List.Ico.filter_le 0 n (i.val + 1)
  rw [← map_val_finRange, List.filter_map, Nat.zero_max] at h
  exact h

end Spectrahedron.Checked
