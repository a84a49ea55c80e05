import Spectrahedron.Eigen.Extractor
import Spectrahedron.Proofs.Checked.Krylov

/-!
# Checked extractors

Both extractors begin with a check of the length of their work slice and split it into regions. The
Lanczos extractor takes the regions for the tridiagonal matrix as parts of a length that is only
known at the end of the Lanczos process; it is the one that they were made for.

**Theorem (`topEig_eq`).** With a matrix and a vector of one positive dimension, no extractor breaks
off, however long its work slice is.
-/

namespace Spectrahedron

open Scalar

variable {α : Type} [Scalar α] {n m : ℕ}

/-! ## The tridiagonal matrix -/

namespace Krylov

/-- The entries of the tridiagonal matrix that step `j` writes. -/
def setTridiagonal (K : Krylov α n m) (T : Mat α m m) (j : Fin m) : Mat α m m :=
  if h : j.val + 1 < m then
    ((T.set j j (K.diag.get j)).set ⟨j + 1, h⟩ j (K.coupling.get j)).set j ⟨j + 1, h⟩
      (K.coupling.get j)
  else T.set j j (K.diag.get j)

theorem foldl_setTridiagonal (K : Krylov α n m) :
    Fin.foldl m K.setTridiagonal (K.tri.scale 0) = K.tridiagonal := by
  -- After `k` steps every entry is in place whose row or column is one of the first `k`.
  have hscan : ∀ r c, (Fin.foldl m K.setTridiagonal (K.tri.scale 0)).get r c =
      if min r.val c.val < m then K.tridiagonal.get r c else 0 * K.tri.get r c := by
    refine foldl_invariant (fun k (T : Mat α m m) => ∀ r c, T.get r c =
      if min r.val c.val < k then K.tridiagonal.get r c else 0 * K.tri.get r c)
      (fun r c => ?_) fun j T hT r c => ?_
    · rw [if_neg (Nat.not_lt_zero _), Mat.get_scale]
    · unfold setTridiagonal
      split <;> simp only [Mat.get_set, hT, tridiagonal, Mat.get_ofFn]
      · grind
      · grind
  exact Mat.ext_get fun r c => (hscan r c).trans (if_pos (by omega))

end Krylov

namespace Checked

/-- The entries of the tridiagonal matrix, written over a slice. -/
def tridiagonal (m : ℕ) (diag coupling t : Array α) : Except Fault (Array α) :=
  loop 0 m (fun j t => do
    let t ← write t (j * m + j) (← read diag j)
    if j + 1 < m then
      let t ← write t (j * m + (j + 1)) (← read coupling j)
      write t ((j + 1) * m + j) (← read coupling j)
    else return t) (Slice.scale 0 t)

theorem tridiagonal_eq (K : Krylov α n m) :
    tridiagonal m K.diag.toArray K.coupling.toArray K.tri.toArray = .ok K.tridiagonal.toArray := by
  rw [← K.foldl_setTridiagonal, tridiagonal, Mat.toArray, Slice.scale_toArray]
  refine loop_finRange Mat.toArray (fun T j => ?_) (K.tri.scale 0)
  unfold Krylov.setTridiagonal
  rw [read_vector, read_vector, ok_bind, write_index, ok_bind]
  split
  · rename_i hnext
    have hbelow : ∀ T : Mat α m m, write T.toArray (j * m + (j + 1)) (K.coupling.get j)
        = .ok (T.set ⟨j + 1, hnext⟩ j (K.coupling.get j)).toArray :=
      fun T => write_index T ⟨j + 1, hnext⟩ j _
    have habove : ∀ T : Mat α m m, write T.toArray ((j + 1) * m + j) (K.coupling.get j)
        = .ok (T.set j ⟨j + 1, hnext⟩ (K.coupling.get j)).toArray :=
      fun T => write_index T j ⟨j + 1, hnext⟩ _
    rw [ok_bind, hbelow, ok_bind, ok_bind, habove]
  · rfl

/-! ## The Ritz pair -/

/-- The position of the first of `m` entries that no later entry exceeds. -/
def argmax (m : ℕ) (x : Array α) : Except Fault ℕ :=
  loop 1 m (fun i best => do
    let a ← read x i
    let b ← read x best
    return if b < a then i else best) 0

theorem argmax_eq (x : Vector α m) (hm : 0 < m) :
    argmax m x.toArray = .ok (Spectrahedron.argmax x hm).val := by
  cases m with
  | zero => cases hm
  | succ m =>
    unfold argmax Spectrahedron.argmax
    rw [loop_shift, Fin.foldl_succ, show (⟨0, hm⟩ : Fin (m + 1)) = 0 from rfl, ite_self]
    refine loop_finRange (fun b : Fin (m + 1) => b.val) (fun b i => ?_) 0
    have hread : read x.toArray (i.val + 1) = .ok (x.get i.succ) := read_vector x i.succ
    rw [hread, read_vector, ok_bind, ok_bind]
    split <;> rfl

/-- The result of a restart in slices. -/
structure RestartSlices (α : Type) where
  ritz : Option (α × α)
  vec : Array α
  work : KrylovSlices α

/-- The residual estimate of a Ritz pair. -/
def residual (n m : ℕ) (coupling s : Array α) : Except Fault α :=
  if m = n then .ok 0
  else do
    let last ← subtract m 1
    return (← read coupling last) * abs (← read s last)

/-- One restart with a basis of at most `ncv` vectors. -/
def restart (l : Lanczos α) (n ncv : ℕ) (mat : Array α) (normG : α) (vec : Array α)
    (K : KrylovSlices α) : Except Fault (RestartSlices α) := do
  let vec ← normalize l.epsZero vec
  let (K, m) ← build n ncv mat (l.epsZero * normG) vec K
  let (tri, triBehind) ← split K.tri (m * m)
  let tri ← tridiagonal m K.diag K.coupling tri
  let (values, valuesBehind) ← split K.values m
  let (vectors, vectorsBehind) ← split K.vectors (m * m)
  let e ← eigen m tri l.epsZero l.maxIter values vectors
  let K := { K with
    tri := e.mat ++ triBehind
    values := e.values ++ valuesBehind
    vectors := e.vectors ++ vectorsBehind }
  if e.converged then
    let i ← argmax m e.values
    let s ← part e.vectors (i * m) ((i + 1) * m)
    let vec ← transform n m 1 (← part K.basis 0 (n * m)) s 0 vec
    let residual ← residual n m K.coupling s
    return ⟨some (← read e.values i, residual), Slice.scale (recip (Slice.norm vec)) vec, K⟩
  else return ⟨none, vec, K⟩

/-- The slices of the result of a restart. -/
def RestartSlices.of (r : Restart α n m) : RestartSlices α :=
  ⟨r.ritz, r.vec.toArray, .of r.work⟩

theorem residual_eq (K : Krylov α n m) (s : Vector α m) (hm : 0 < m) :
    residual n m K.coupling.toArray s.toArray = .ok (K.residual s hm) := by
  unfold residual Krylov.residual
  split
  · rfl
  · have hlast : m - 1 < m := Nat.sub_lt hm Nat.one_pos
    have hread : ∀ x : Vector α m, read x.toArray (m - 1) = .ok (x.get ⟨m - 1, hlast⟩) :=
      fun x => read_vector x ⟨m - 1, hlast⟩
    rw [subtract_of_le hm, ok_bind, hread, hread]
    rfl

theorem restart_eq (l : Lanczos α) (G : Mat α n n) (normG : α) (hm : 0 < m) (hmn : m ≤ n)
    (v : Vector α n) (K : Krylov α n m) :
    restart l n m G.toArray normG v.toArray (.of K)
      = .ok (.of (l.restart G normG hm hmn v K)) := by
  unfold restart Lanczos.restart Krylov.diagonalize
  rw [normalize_eq l.epsZero v (hm.trans_le hmn), ok_bind, build_eq G _ hm hmn, ok_bind]
  dsimp only
  generalize K.build G (l.epsZero * normG) hm hmn _ = K'
  simp only [KrylovSlices.of, split_whole K'.tri.size_toArray, tridiagonal_eq,
    split_whole K'.values.size_toArray, split_whole K'.vectors.size_toArray, eigen_eq,
    EigenSlices.of, Array.append_empty, ok_bind]
  generalize K'.tridiagonal.eigen l.epsZero l.maxIter = e
  split
  · have hpart : ∀ i : Fin m, part e.basis.toArray (i * m) ((i + 1) * m)
        = .ok (e.basis.col i).toArray := fun i => by
      have h := part_front e.basis le_rfl i
      rwa [Mat.front, Array.extract_eq_self_of_le e.basis.size_toArray.le] at h
    have hbasis : part K'.basis.toArray 0 (n * m) = .ok K'.basis.toArray := by
      rw [← K'.basis.size_toArray, part_whole]
    simp only [argmax_eq _ hm, hpart, hbasis, transform_eq, residual_eq K' _ hm, read_vector,
      Slice.norm_toArray, Slice.scale_toArray, ok_bind]
    rfl
  · rfl

/-! ## Extractions -/

/-- What an extraction leaves in the slices of the vector and of the work entries. -/
structure Extracted (α : Type) where
  outcome : Except Stop α
  vec : Array α
  work : Array α

/-- The slices of an extraction. -/
def Extracted.of (e : Extraction α n (Array α)) : Extracted α := ⟨e.outcome, e.vec.toArray, e.work⟩

/-- The eigenpair of the largest eigenvalue of a full decomposition. -/
def topEigDense (d : Dense α) (n : ℕ) (mat vec work : Array α) : Except Fault (Extracted α) := do
  if work.size < Dense.workLength n then return ⟨.error (.error .workShortage), vec, work⟩
  let (a, rest) ← split work (n * n)
  let (values, rest) ← split rest n
  let (vectors, spare) ← split rest (n * n)
  let a ← Slice.copy mat a
  let e ← eigen n a d.epsZero d.maxSweeps values vectors
  let work := e.mat ++ e.values ++ e.vectors ++ spare
  if e.converged then
    let i ← argmax n e.values
    let (_, v) ← split e.vectors (i * n)
    let vec ← Slice.copy (← part v 0 n) vec
    return ⟨.ok (← read e.values i), vec, work⟩
  else return ⟨.error (.error .eigenConvergence), vec, work⟩

/-- Restarts until one is accepted, at most `left` of them. -/
def restarts (l : Lanczos α) (n ncv : ℕ) (mat : Array α) (normG tol : α) :
    ℕ → Array α → KrylovSlices α → Except Fault (Except Stop α × Array α × KrylovSlices α)
  | 0, vec, K => .ok (.error (.error .eigenConvergence), vec, K)
  | left + 1, vec, K => do
    let r ← restart l n ncv mat normG vec K
    match r.ritz with
    | none => return (.error (.error .eigenConvergence), r.vec, r.work)
    | some (value, residual) =>
      if residual ≤ tol * normG then return (.ok value, r.vec, r.work)
      else restarts l n ncv mat normG tol left r.vec r.work

/-- The regions of a work slice, and what is behind them. -/
def splitKrylov (n m : ℕ) (work : Array α) : Except Fault (KrylovSlices α × Array α) := do
  let (basis, rest) ← split work (n * m)
  let (image, rest) ← split rest n
  let (diag, rest) ← split rest m
  let (coupling, rest) ← split rest m
  let (tri, rest) ← split rest (m * m)
  let (values, rest) ← split rest m
  let (vectors, spare) ← split rest (m * m)
  return (⟨basis, image, diag, coupling, tri, values, vectors⟩, spare)

/-- The top eigenpair by restarted Lanczos iteration. -/
def topEigLanczos (l : Lanczos α) (n : ℕ) (mat : Array α) (tol : α) (vec work : Array α) :
    Except Fault (Extracted α) := do
  if work.size < Lanczos.workLength n l.krylovDim then
    return ⟨.error (.error .workShortage), vec, work⟩
  let ncv := Lanczos.basisDim l.krylovDim n
  let (K, spare) ← splitKrylov n ncv work
  let normG := Slice.norm mat
  if normG ≤ l.epsZero then
    return ⟨.ok 0, ← normalize l.epsZero vec, K.toArray ++ spare⟩
  else
    let (outcome, vec, K) ← restarts l n ncv mat normG tol (l.maxIter + 1) vec K
    return ⟨outcome, vec, K.toArray ++ spare⟩

/-- The top eigenpair of a matrix. -/
def topEig (e : Extractor α) (n : ℕ) (mat : Array α) (tol : α) (vec work : Array α) :
    Except Fault (Extracted α) :=
  match e with
  | .dense d => topEigDense d n mat vec work
  | .lanczos l => topEigLanczos l n mat tol vec work

theorem topEigDense_eq (d : Dense α) (hn : 0 < n) (G : Mat α n n) (tol : α) (vec : Vector α n)
    (work : Array α) :
    topEigDense d n G.toArray vec.toArray work
      = .ok (.of ((Extractor.dense d).topEig G tol vec work)) := by
  unfold topEigDense Extractor.topEig
  by_cases hfit : Dense.workLength n ≤ work.size
  · have hsize : n * n + n + n * n ≤ work.size := hfit
    have hmat : split work (n * n) = .ok (((Dense.Regions.ofSlice n work hfit).mat).toArray,
        Workspace.rest work (n * n)) := split_start (by omega)
    have hvalues : split (Workspace.rest work (n * n)) n = .ok
        ((Dense.Regions.ofSlice n work hfit).values.toArray, Workspace.rest work (n * n + n)) :=
      split_rest (by omega)
    have hvectors : split (Workspace.rest work (n * n + n)) (n * n) = .ok
        ((Dense.Regions.ofSlice n work hfit).vectors.toArray,
          Workspace.rest work (Dense.workLength n)) := split_rest hsize
    have hcopy : Slice.copy G.toArray (Dense.Regions.ofSlice n work hfit).mat.toArray
        = .ok G.toArray := Slice.copy_toArray G.data _
    rw [if_neg (Nat.not_lt.2 hfit), hmat, ok_bind]
    dsimp only
    rw [dif_pos hfit, hvalues, ok_bind, hvectors, ok_bind, hcopy, ok_bind, eigen_eq, ok_bind]
    generalize Dense.Regions.ofSlice n work hfit = w
    unfold Dense.topEig Dense.topPair Dense.decompose
    dsimp only [EigenSlices.of]
    generalize G.eigen d.epsZero d.maxSweeps = e
    have hsplit : ∀ i : Fin n, split e.basis.toArray (i * n)
        = .ok (e.basis.front i, e.basis.toArray.extract (i * n) (n * n)) :=
      fun i => split_columns e.basis i.isLt.le
    have hpart : ∀ i : Fin n, part (e.basis.toArray.extract (i * n) (n * n)) 0 n
        = .ok (e.basis.col i).toArray := fun i => part_of_split (split_column e.basis i)
    have hstore : (w.store e).toArray = e.mat.toArray
        ++ (if e.converged then e.values else w.values).toArray ++ e.basis.toArray := rfl
    by_cases hconv : e.converged = true
    · rw [if_pos hconv] at hstore
      simp only [hconv, if_true, dif_pos hn, argmax_eq e.values hn, hsplit, hpart,
        Slice.copy_toArray, read_vector, ok_bind, ← hstore]
      rfl
    · rw [if_neg hconv] at hstore
      simp only [if_neg hconv, ← hstore]
      rfl
  · rw [if_pos (Nat.lt_of_not_le hfit)]
    dsimp only
    rw [dif_neg hfit]
    rfl

theorem restarts_eq (l : Lanczos α) (G : Mat α n n) (normG tol : α) (hm : 0 < m) (hmn : m ≤ n)
    (left number : ℕ) (v : Vector α n) (K : Krylov α n m) (events : Array (Event α)) :
    restarts l n m G.toArray normG tol left v.toArray (.of K)
      = .ok ((l.restarts G normG tol hm hmn left number v K events).outcome,
          (l.restarts G normG tol hm hmn left number v K events).vec.toArray,
          .of (l.restarts G normG tol hm hmn left number v K events).work) := by
  induction left generalizing number v K events with
  | zero => rfl
  | succ left ih =>
    rw [restarts, restart_eq l G normG hm hmn, ok_bind]
    unfold Lanczos.restarts RestartSlices.of
    dsimp only
    cases (l.restart G normG hm hmn v K).ritz with
    | none => rfl
    | some p =>
      dsimp only
      split
      · rfl
      · exact ih _ _ _ _

omit [Scalar α] in
theorem splitKrylov_eq {work : Array α} (h : Krylov.size n m ≤ work.size) :
    splitKrylov n m work
      = .ok (.of (Krylov.ofSlice n m work h), Workspace.rest work (Krylov.size n m)) := by
  have hsize : n * m + n + m + m + m * m + m + m * m ≤ work.size := h
  unfold splitKrylov
  rw [split_start (by omega)]
  simp (disch := omega) only [split_rest, ok_bind]
  rfl

theorem topEigLanczos_eq (l : Lanczos α) (hn : 0 < n) (G : Mat α n n) (tol : α) (vec : Vector α n)
    (work : Array α) :
    topEigLanczos l n G.toArray tol vec.toArray work
      = .ok (.of ((Extractor.lanczos l).topEig G tol vec work)) := by
  unfold topEigLanczos Extractor.topEig
  by_cases hfit : Lanczos.workLength n l.krylovDim ≤ work.size
  · have hsize : Krylov.size n (Lanczos.basisDim l.krylovDim n) ≤ work.size := hfit
    rw [if_neg (Nat.not_lt.2 hfit)]
    dsimp only
    rw [dif_pos hfit, splitKrylov_eq hsize, ok_bind]
    generalize Krylov.ofSlice n (Lanczos.basisDim l.krylovDim n) work hfit = K
    have hnorm : Slice.norm G.toArray = G.norm := Slice.norm_toArray G.data
    unfold Lanczos.topEig Lanczos.topEigZero Lanczos.topEigNonzero normalize?
    dsimp only
    rw [hnorm, dif_pos hn, dif_pos hn]
    split
    · rw [normalize_eq l.epsZero vec hn]
      rfl
    · rw [restarts_eq l G _ tol (l.basisDim_pos hn) (Lanczos.basisDim_le _ _) _ 0 vec K #[]]
      rfl
  · rw [if_pos (Nat.lt_of_not_le hfit)]
    dsimp only
    rw [dif_neg hfit]
    rfl

/-- **Extractions do not break off**, and leave in the slices what the typed extraction does. -/
theorem topEig_eq (e : Extractor α) (hn : 0 < n) (G : Mat α n n) (tol : α) (vec : Vector α n)
    (work : Array α) :
    topEig e n G.toArray tol vec.toArray work = .ok (.of (e.topEig G tol vec work)) := by
  cases e with
  | dense d => exact topEigDense_eq d hn G tol vec work
  | lanczos l => exact topEigLanczos_eq l hn G tol vec work

end Checked

end Spectrahedron
