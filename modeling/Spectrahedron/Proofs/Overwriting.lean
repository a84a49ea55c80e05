import Spectrahedron.Eigen.Extractor
import Spectrahedron.Proofs.WorkLength

/-!
# Regions are written before they are read

In exact arithmetic zero times anything is zero, so what a region of the work slice held before has
no part in what is written over it. While a Krylov basis is built, the columns, the diagonal entries
and the couplings that exist so far do not depend on the rest of the regions; at its end there is no
rest that is read.

**Theorem (`Extractor.answer_topEig`).** The outcome, the vector and the events of an extraction do
not depend on the contents of its work slice, nor on the length of a slice that is long enough.
-/

namespace Spectrahedron

open Scalar

variable {n m : ℕ}

/-! ## Operations that write over a vector or a matrix -/

theorem scale_zero_congr (x y : Vector ℝ n) : scale 0 x = scale 0 y := by
  refine Vec.ext_get fun i => ?_
  rw [get_scale, get_scale, zero_mul, zero_mul]

theorem Mat.scale_zero_congr (A B : Mat ℝ m n) : A.scale 0 = B.scale 0 := by
  refine ext_get fun r c => ?_
  rw [get_scale, get_scale, zero_mul, zero_mul]

theorem Mat.transform_zero_congr (a : ℝ) (A : Mat ℝ m n) (x : Vector ℝ n) (y y' : Vector ℝ m) :
    A.transform a x 0 y = A.transform a x 0 y' := by
  refine Vec.ext_get fun r => ?_
  rw [get_transform, get_transform, zero_mul, zero_mul]

theorem coordinateOver_congr (v v' : Vector ℝ n) (k : Fin n) :
    coordinateOver v k = coordinateOver v' k := by
  unfold coordinateOver
  rw [scale_zero_congr v v']

/-- A vector is filled with random numbers from the first entry to the last. -/
theorem Xoshiro.fill_congr {α : Type} [Scalar α] (f : α → α) (old old' : Vector α n)
    (random : Xoshiro) : random.fill f old = random.fill f old' := by
  have hfill : (random.fill f old).2 = (random.fill f old').2 ∧
      ∀ i : Fin n, i.val < n → (random.fill f old).1.get i = (random.fill f old').1.get i := by
    refine foldl_related
      (fun k (s s' : Vector α n × Xoshiro) =>
        s.2 = s'.2 ∧ ∀ i : Fin n, i.val < k → s.1.get i = s'.1.get i)
      ⟨rfl, fun i hi => absurd hi (Nat.not_lt_zero _)⟩ ?_
    rintro k ⟨v, g⟩ ⟨v', g'⟩ ⟨hg, hv⟩
    dsimp only at hg hv ⊢
    subst hg
    refine ⟨rfl, fun i hi => ?_⟩
    rw [Vec.get_setEntry, Vec.get_setEntry]
    split
    · rfl
    · rename_i hne
      exact hv i (lt_of_le_of_ne (Nat.lt_succ_iff.1 hi) fun he => hne (Fin.ext he.symm))
  exact Prod.ext (Vec.ext_get fun i => hfill.2 i i.isLt) hfill.1

/-! ## A basis under construction -/

namespace Krylov

section Columns

variable {B B' : Mat ℝ n m} {count : ℕ}
  (hB : ∀ c : Fin m, c.val < count → B.col c = B'.col c) (h : count ≤ m)

include hB

theorem project_congr (w : Vector ℝ n) : project B count h w = project B' count h w := by
  refine foldl_related (fun _ w w' => w = w') rfl fun i w w' hw => ?_
  dsimp only
  rw [hw, hB (i.castLE h) i.isLt]

theorem orthogonalize_congr (w : Vector ℝ n) :
    orthogonalize B count h w = orthogonalize B' count h w := by
  unfold orthogonalize
  rw [project_congr hB h w, project_congr hB h]

theorem coverage_congr (k : Fin n) : coverage B count h k = coverage B' count h k := by
  have hentry : ∀ i : Fin count, B.get k (i.castLE h) = B'.get k (i.castLE h) := by
    intro i
    rw [← Mat.get_col, hB (i.castLE h) i.isLt, Mat.get_col]
  unfold coverage
  exact congrArg sum (funext fun i => by rw [hentry i])

theorem leastCovered_congr (first : Fin n) :
    leastCovered B count h first = leastCovered B' count h first := by
  have hscan : lessCovered B count h = lessCovered B' count h := by
    funext best k
    unfold lessCovered
    rw [coverage_congr hB h k]
  unfold leastCovered
  rw [hscan]

theorem fresh_congr (first : Fin n) (old old' : Vector ℝ n) :
    fresh B count h first old = fresh B' count h first old' := by
  unfold fresh
  rw [leastCovered_congr hB h first, coordinateOver_congr old old', orthogonalize_congr hB h]

end Columns

/-- The regions of two slices agree on what exists after `count` steps: one more column than steps,
and an entry of the diagonal and a coupling for each of them. -/
structure AgreeUpTo (count : ℕ) (K K' : Krylov ℝ n m) : Prop where
  basis : ∀ c : Fin m, c.val < count + 1 → K.basis.col c = K'.basis.col c
  diag : ∀ i : Fin m, i.val < count → K.diag.get i = K'.diag.get i
  coupling : ∀ i : Fin m, i.val < count → K.coupling.get i = K'.coupling.get i

/-- What a first run of steps leaves alone stays when a later run leaves more alone. -/
theorem AgreeUpTo.trans_of_le {j k : ℕ} {K K' K'' : Krylov ℝ n m} (h : AgreeUpTo j K K')
    (hjk : j ≤ k) (h' : AgreeUpTo k K' K'') : AgreeUpTo j K K'' where
  basis c hc := (h.basis c hc).trans (h'.basis c (hc.trans_le (Nat.succ_le_succ hjk)))
  diag i hi := (h.diag i hi).trans (h'.diag i (hi.trans_le hjk))
  coupling i hi := (h.coupling i hi).trans (h'.coupling i (hi.trans_le hjk))

theorem setEntry_congr_of_lt {x x' : Vector ℝ m} {j : Fin m} {a : ℝ}
    (hx : ∀ i : Fin m, i.val < j.val → x.get i = x'.get i) (i : Fin m) (hi : i.val < j.val + 1) :
    (Vec.setEntry x j a).get i = (Vec.setEntry x' j a).get i := by
  rw [Vec.get_setEntry, Vec.get_setEntry]
  split
  · rfl
  · rename_i hne
    exact hx i (lt_of_le_of_ne (Nat.lt_succ_iff.1 hi) fun he => hne (Fin.ext he.symm))

theorem col_setCol_congr_of_lt {B B' : Mat ℝ n m} {count : ℕ} {v : Vector ℝ n}
    (hB : ∀ c : Fin m, c.val < count → B.col c = B'.col c) (hc : count < m) (c : Fin m)
    (hcc : c.val < count + 1) :
    (B.setCol ⟨count, hc⟩ v).col c = (B'.setCol ⟨count, hc⟩ v).col c := by
  refine Vec.ext_get fun r => ?_
  rw [Mat.get_col, Mat.get_col, Mat.get_setCol, Mat.get_setCol]
  split
  · rfl
  · rename_i hne
    have hlt : c.val < count :=
      lt_of_le_of_ne (Nat.lt_succ_iff.1 hcc) fun he => hne (Fin.ext he)
    rw [← Mat.get_col, hB c hlt, Mat.get_col]

/-- One step reads no more than what exists, and adds to it. -/
theorem AgreeUpTo.extend {K K' : Krylov ℝ n m} {j : Fin m} (h : AgreeUpTo j K K') (G : Mat ℝ n n)
    (tiny : ℝ) (first : Fin n) :
    AgreeUpTo (j + 1) (K.extend G tiny first j) (K'.extend G tiny first j) := by
  have hv : K.basis.col j = K'.basis.col j := h.basis j (Nat.lt_succ_self _)
  have himage : G.transform 1 (K.basis.col j) 0 K.image
      = G.transform 1 (K'.basis.col j) 0 K'.image := by
    rw [hv]
    exact Mat.transform_zero_congr 1 G _ _ _
  have hw : orthogonalize K.basis (j + 1) j.isLt (G.transform 1 (K.basis.col j) 0 K.image)
      = orthogonalize K'.basis (j + 1) j.isLt (G.transform 1 (K'.basis.col j) 0 K'.image) := by
    rw [himage]
    exact orthogonalize_congr h.basis j.isLt _
  unfold Krylov.extend
  dsimp only
  rw [hw, himage, hv]
  by_cases hroom : j.val + 1 < m
  · rw [dif_pos hroom, dif_pos hroom]
    split
    · exact ⟨col_setCol_congr_of_lt h.basis hroom, setEntry_congr_of_lt h.diag,
        setEntry_congr_of_lt h.coupling⟩
    · rw [fresh_congr h.basis j.isLt first _ (K'.basis.col ⟨j.val + 1, hroom⟩)]
      exact ⟨col_setCol_congr_of_lt h.basis hroom, setEntry_congr_of_lt h.diag,
        setEntry_congr_of_lt h.coupling⟩
  · rw [dif_neg hroom, dif_neg hroom]
    refine ⟨fun c _ => h.basis c (c.isLt.trans_le (not_lt.1 hroom)), setEntry_congr_of_lt h.diag,
      setEntry_congr_of_lt h.coupling⟩

/-- The whole basis does not depend on what its regions held before. -/
theorem agreeUpTo_build (G : Mat ℝ n n) (tiny : ℝ) (hm : 0 < m) (hmn : m ≤ n) (v : Vector ℝ n)
    (K K' : Krylov ℝ n m) : AgreeUpTo m (K.build G tiny hm hmn v) (K'.build G tiny hm hmn v) := by
  refine foldl_related (fun j (K K' : Krylov ℝ n m) => AgreeUpTo j K K') ?_
    fun j K K' h => h.extend G tiny _
  exact ⟨col_setCol_congr_of_lt (fun c hc => absurd hc (Nat.not_lt_zero _)) hm,
    fun i hi => absurd hi (Nat.not_lt_zero _), fun i hi => absurd hi (Nat.not_lt_zero _)⟩

section Complete

variable {K K' : Krylov ℝ n m} (h : AgreeUpTo m K K')

include h

theorem AgreeUpTo.basis_eq : K.basis = K'.basis := by
  refine Mat.ext_get fun r c => ?_
  rw [← Mat.get_col, h.basis c (c.isLt.trans (Nat.lt_succ_self m)), Mat.get_col]

theorem AgreeUpTo.tridiagonal_eq : K.tridiagonal = K'.tridiagonal := by
  refine Mat.ext_get fun r c => ?_
  unfold tridiagonal
  rw [Mat.get_ofFn, Mat.get_ofFn, h.diag r r.isLt, h.coupling r r.isLt, h.coupling c c.isLt,
    zero_mul, zero_mul]

theorem AgreeUpTo.residual_eq (s : Vector ℝ m) (hm : 0 < m) :
    K.residual s hm = K'.residual s hm := by
  unfold residual
  dsimp only
  rw [h.coupling _ (Nat.sub_lt hm Nat.one_pos)]

theorem AgreeUpTo.combine_eq (s : Vector ℝ m) (old : Vector ℝ n) :
    K.combine s old = K'.combine s old := by
  unfold combine
  rw [h.basis_eq]

end Complete

end Krylov

/-! ## Extractions -/

/-- An extraction without what it leaves in the work slice. -/
def Extraction.answer {α : Type} {n : ℕ} {ω : Type} (e : Extraction α n ω) : Extraction α n Unit :=
  ⟨e.outcome, e.vec, (), e.events⟩

namespace Lanczos

variable (l : Lanczos ℝ) (G : Mat ℝ n n) (normG tol : ℝ)

/-- A restart leaves a pair, a vector and events that do not depend on what the regions held. -/
theorem restart_congr (hm : 0 < m) (hmn : m ≤ n) (v : Vector ℝ n) (K K' : Krylov ℝ n m) :
    (l.restart G normG hm hmn v K).ritz = (l.restart G normG hm hmn v K').ritz ∧
      (l.restart G normG hm hmn v K).vec = (l.restart G normG hm hmn v K').vec ∧
      (l.restart G normG hm hmn v K).events = (l.restart G normG hm hmn v K').events := by
  have hbuild := Krylov.agreeUpTo_build G (l.epsZero * normG) hm hmn
    (normalize l.epsZero v (Nat.lt_of_lt_of_le hm hmn)) K K'
  unfold restart Krylov.diagonalize
  dsimp only
  rw [hbuild.tridiagonal_eq]
  split
  · exact ⟨congrArg (fun r => some (_, r)) (hbuild.residual_eq _ hm), hbuild.combine_eq _ _, rfl⟩
  · exact ⟨rfl, rfl, rfl⟩

theorem answer_restarts (hm : 0 < m) (hmn : m ≤ n) (left number : ℕ) (v : Vector ℝ n)
    (K K' : Krylov ℝ n m) (events : Array (Event ℝ)) :
    (l.restarts G normG tol hm hmn left number v K events).answer
      = (l.restarts G normG tol hm hmn left number v K' events).answer := by
  induction left generalizing number v K K' events with
  | zero => rfl
  | succ left ih =>
    obtain ⟨hritz, hvec, hevents⟩ := l.restart_congr G normG hm hmn v K K'
    unfold restarts
    generalize l.restart G normG hm hmn v K = r at hritz hvec hevents
    generalize l.restart G normG hm hmn v K' = r' at hritz hvec hevents
    dsimp only
    rw [hritz, hvec, hevents]
    cases r'.ritz with
    | none =>
      unfold Extraction.answer
      dsimp only
    | some pair =>
      dsimp only
      split
      · unfold Extraction.answer
        dsimp only
      · exact ih _ _ _ _ _

theorem answer_topEig (vec : Vector ℝ n) (K K' : Krylov ℝ n (basisDim l.krylovDim n)) :
    (l.topEig G tol vec K).answer = (l.topEig G tol vec K').answer := by
  unfold topEig
  dsimp only
  split
  · unfold topEigZero
    split <;> rfl
  · unfold topEigNonzero
    split
    · exact l.answer_restarts G _ tol _ _ _ _ _ _ _ _
    · unfold topEigEmpty
      split
      · rfl
      · split
        · rfl
        · dsimp only
          split <;> rfl

end Lanczos

/-- Two work slices that serve equally well: they have one length, or both are as long as required.
-/
def Workspace.Interchangeable {α : Type} (required : ℕ) (work work' : Array α) : Prop :=
  work.size = work'.size ∨ required ≤ work.size ∧ required ≤ work'.size

namespace Extractor

/-- **An answer does not depend on the work slice**, but for slices of which one is too short. -/
theorem answer_topEig (e : Extractor ℝ) (G : Mat ℝ n n) (tol : ℝ) (vec : Vector ℝ n)
    {work work' : Array ℝ} (h : Workspace.Interchangeable (e.workLength n) work work') :
    (e.topEig G tol vec work).answer = (e.topEig G tol vec work').answer := by
  cases e with
  | dense d =>
    have hsizes : _ ∨ _ ≤ _ ∧ _ ≤ _ := h
    unfold workLength at hsizes
    dsimp only at hsizes
    unfold topEig
    dsimp only
    by_cases hfit : Dense.workLength n ≤ work.size
    · rw [dif_pos hfit, dif_pos (show Dense.workLength n ≤ work'.size by omega)]
      unfold Dense.topEig
      dsimp only
      split <;> rfl
    · have hsize : work.size = work'.size := by omega
      rw [dif_neg hfit, dif_neg (show ¬Dense.workLength n ≤ work'.size by omega), hsize]
      rfl
  | lanczos l =>
    have hsizes : _ ∨ _ ≤ _ ∧ _ ≤ _ := h
    unfold workLength at hsizes
    dsimp only at hsizes
    unfold topEig
    dsimp only
    by_cases hfit : Lanczos.workLength n l.krylovDim ≤ work.size
    · rw [dif_pos hfit, dif_pos (show Lanczos.workLength n l.krylovDim ≤ work'.size by omega)]
      exact l.answer_topEig G tol vec _ _
    · have hsize : work.size = work'.size := by omega
      rw [dif_neg hfit, dif_neg (show ¬Lanczos.workLength n l.krylovDim ≤ work'.size by omega),
        hsize]
      rfl

end Extractor

end Spectrahedron
