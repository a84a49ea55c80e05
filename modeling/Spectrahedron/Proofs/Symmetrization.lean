import Mathlib.Algebra.BigOperators.Fin
import Spectrahedron.Proofs.Checked.Run
import Spectrahedron.Proofs.Rayleigh
import Spectrahedron.Proofs.Runs

/-!
# Refused and symmetric gradients

A gradient is refused when it is far from its transpose. The scan that decides this comes before
anything is written, so that a gradient that is refused is left in its slice as it was found; any
other one is replaced by its mean with the transpose, pair after pair across the diagonal.

**Theorem (`FrankWolfe.symmetrize_spec`).** A gradient is refused exactly when some entry differs from
the one across the diagonal by more than the tolerance. Otherwise its symmetric part is left, which is
accepted again, and is left as it is.
-/

namespace Spectrahedron

open Scalar Matrix

variable {n : ℕ}

/-! ## The norm of the symmetric part -/

namespace Mat

theorem norm_eq_sqrt_sum {m : ℕ} (A : Mat ℝ m n) : A.norm = √(∑ r, ∑ c, A.get r c ^ 2) := by
  rw [← Real.sqrt_sq A.zero_le_norm, norm_sq_eq_frobenius]
  simp only [frobenius, sq]

theorem frobenius_le_norm_mul_norm {m : ℕ} (A B : Mat ℝ m n) : A.frobenius B ≤ A.norm * B.norm := by
  rw [frobenius_eq_dotProduct]
  unfold norm
  rw [norm_eq_length, norm_eq_length]
  exact (le_abs_self _).trans (abs_dotProduct_le_length _ _)

/-- The symmetric part is a projection. -/
theorem norm_symmetricPart_le (G : Mat ℝ n n) : (FrankWolfe.symmetricPart G).norm ≤ G.norm := by
  have hsq : (FrankWolfe.symmetricPart G).norm * (FrankWolfe.symmetricPart G).norm
      ≤ G.norm * (FrankWolfe.symmetricPart G).norm := by
    rw [← sq, norm_sq_eq_frobenius, frobenius_symmetricPart G (isSymm_symmetricPart G)]
    exact frobenius_le_norm_mul_norm _ _
  rcases (FrankWolfe.symmetricPart G).zero_le_norm.eq_or_lt with hzero | hpos
  · rw [← hzero]
    exact G.zero_le_norm
  · exact le_of_mul_le_mul_right hsq hpos

end Mat

namespace FrankWolfe

/-! ## The scan -/

/-- A loop that exceeds a bound exceeds it at the start or in one of its steps. -/
theorem lt_foldl_iff {t : ℝ} {f : ℝ → Fin n → ℝ} {P : Fin n → Prop}
    (hstep : ∀ s i, t < f s i ↔ t < s ∨ P i) (s : ℝ) :
    t < Fin.foldl n f s ↔ t < s ∨ ∃ i, P i := by
  induction n with
  | zero => simp
  | succ n ih =>
    rw [Fin.foldl_succ_last, hstep, ih fun s i => hstep s i.castSucc, Fin.exists_fin_succ', or_assoc]

/-- The scan visits each pair across the diagonal once. -/
theorem lt_asymmetry_iff {t : ℝ} (ht : 0 ≤ t) (g : Mat ℝ n n) :
    t < asymmetry g ↔ ∃ i j, t < |g.get i j - g.get j i| := by
  have hentry : ∀ (c : Fin n) s r,
      (t < if r < c then larger s (Scalar.abs (g.get r c - g.get c r)) else s) ↔
        t < s ∨ r < c ∧ t < |g.get r c - g.get c r| := by
    intro c s r
    split
    · rename_i hrc
      rw [larger_eq, lt_max_iff, and_iff_right hrc]
      rfl
    · rename_i hrc
      rw [iff_self_or]
      exact fun h => absurd h.1 hrc
  unfold asymmetry
  rw [lt_foldl_iff fun s c => lt_foldl_iff (hentry c) s, or_iff_right (not_lt.2 ht)]
  constructor
  · rintro ⟨c, r, -, hlt⟩
    exact ⟨r, c, hlt⟩
  · -- The scan sees the entries above the diagonal only; below it the differences are the same.
    rintro ⟨i, j, hlt⟩
    rcases lt_trichotomy i j with hij | rfl | hij
    · exact ⟨j, i, hij, hlt⟩
    · rw [sub_self, abs_zero] at hlt
      exact absurd hlt (not_lt.2 ht)
    · rw [abs_sub_comm] at hlt
      exact ⟨i, j, hij, hlt⟩

/-! ## Refusal -/

/-- Some entry differs from the one across the diagonal by more than the tolerance, which is relative
to the Frobenius norm, or to the floor of norms that are smaller. -/
def TooAsymmetric (epsZero epsSym : ℝ) (g : Mat ℝ n n) : Prop :=
  ∃ i j, epsSym * max (√(∑ r, ∑ c, g.get r c ^ 2)) epsZero < |g.get i j - g.get j i|

section Refusal

variable {epsZero epsSym : ℝ} {g : Mat ℝ n n}

theorem lt_asymmetry_iff_tooAsymmetric (heps : 0 ≤ epsSym) :
    epsSym * larger g.norm epsZero < asymmetry g ↔ TooAsymmetric epsZero epsSym g := by
  rw [larger_eq, Mat.norm_eq_sqrt_sum]
  exact lt_asymmetry_iff (mul_nonneg heps (le_max_of_le_left (Real.sqrt_nonneg _))) g

theorem symmetrize_of_tooAsymmetric (heps : 0 ≤ epsSym) (hg : TooAsymmetric epsZero epsSym g) :
    symmetrize epsZero epsSym g =
      .error (.asymmetricGradient, .asymmetricGradient (asymmetry g) epsSym g.norm) := by
  rw [symmetrize_eq_ite, if_pos ((lt_asymmetry_iff_tooAsymmetric heps).2 hg)]

theorem symmetrize_of_not_tooAsymmetric (heps : 0 ≤ epsSym)
    (hg : ¬TooAsymmetric epsZero epsSym g) :
    symmetrize epsZero epsSym g = .ok (symmetricPart g) := by
  rw [symmetrize_eq_ite, if_neg fun h => hg ((lt_asymmetry_iff_tooAsymmetric heps).1 h)]

end Refusal

/-! ## The symmetric part -/

/-- A matrix is the mean of another one and its transpose. It is symmetric and has the same diagonal,
its Frobenius norm is not larger, and its inner product with each symmetric matrix is the same. -/
structure IsSymmetricPart (S g : Mat ℝ n n) : Prop where
  mean : ∀ i j, S.get i j = (g.get i j + g.get j i) / 2
  isSymm : S.toMatrix.IsSymm
  diagonal : ∀ i, S.get i i = g.get i i
  norm_le : √(∑ r, ∑ c, S.get r c ^ 2) ≤ √(∑ r, ∑ c, g.get r c ^ 2)
  inner_eq : ∀ D : Mat ℝ n n, D.toMatrix.IsSymm →
    ∑ r, ∑ c, S.get r c * D.get r c = ∑ r, ∑ c, g.get r c * D.get r c

theorem get_symmetricPart (g : Mat ℝ n n) (i j : Fin n) :
    (symmetricPart g).get i j = (g.get i j + g.get j i) / 2 := by
  have hij := congrFun₂ (Mat.toMatrix_symmetricPart g) i j
  simp only [Mat.toMatrix_apply, Matrix.smul_apply, Matrix.add_apply, transpose_apply,
    smul_eq_mul] at hij
  rw [hij]
  ring

theorem isSymmetricPart_symmetricPart (g : Mat ℝ n n) : IsSymmetricPart (symmetricPart g) g where
  mean := get_symmetricPart g
  isSymm := Mat.isSymm_symmetricPart g
  diagonal i := by
    rw [get_symmetricPart]
    ring
  norm_le := by
    rw [← Mat.norm_eq_sqrt_sum, ← Mat.norm_eq_sqrt_sum]
    exact Mat.norm_symmetricPart_le g
  inner_eq _ hD := Mat.frobenius_symmetricPart g hD

end FrankWolfe

/-! ## Gradients in their slices -/

namespace Checked

variable {α : Type} [Scalar α]

/-- A gradient made symmetric in its slice, or refused; with the contents of the slice after it. -/
def symmetrizeInPlace (epsZero epsSym : α) (n : ℕ) (g : Array α) :
    Except Fault (Except SolveError Unit × Array α) := do
  if g.all isFinite then
    let asym ← asymmetry n g
    if epsSym * larger (Slice.norm g) epsZero < asym then
      return (.error .asymmetricGradient, g)
    let g ← symmetricPart n g
    return (.ok (), g)
  else return (.error .nonFiniteValue, g)

theorem symmetrizeInPlace_eq (epsZero epsSym : α) (g : Mat α n n) :
    symmetrizeInPlace epsZero epsSym n g.toArray
      = .ok (match FrankWolfe.symmetrize epsZero epsSym g with
        | .error (e, _) => (.error e, g.toArray)
        | .ok G => (.ok (), G.toArray)) := by
  have hall : g.toArray.all isFinite = g.data.all isFinite := rfl
  have hnorm : Slice.norm g.toArray = g.norm := Slice.norm_toArray g.data
  unfold symmetrizeInPlace FrankWolfe.symmetrize
  rw [hall, asymmetry_eq, symmetricPart_eq, hnorm]
  split
  · dsimp only
    rw [ok_bind, ok_bind]
    split <;> rfl
  · rfl

end Checked

namespace FrankWolfe

/-! ## Gradients in a run -/

section Advance

variable {α : Type} [Scalar α] {p : Problem α n} {k : ℕ} {st : State α n} {g : Mat α n n}

/-- An iteration leaves what the gradient was made into. -/
theorem gradient_advance_of_ok (hg : p.objective.gradient k st.regions.point st.regions.gradient
    = .ok g) {S : Mat α n n} (hS : symmetrize p.settings.epsZero p.settings.epsSym g = .ok S) :
    (advance p k st).state.regions.gradient = S := by
  have hgrad : symmetricGradient p k st = .ok S := by
    unfold symmetricGradient
    simp only [hg, hS]
  rw [advance_of_gradient_ok hgrad]
  unfold ascend
  dsimp only
  split <;> rfl

/-- An iteration whose gradient is refused stops, with the gradient as it was found. -/
theorem advance_of_symmetrize_error
    (hg : p.objective.gradient k st.regions.point st.regions.gradient = .ok g) {e : SolveError}
    {event : Event α}
    (he : symmetrize p.settings.epsZero p.settings.epsSym g = .error (e, event)) :
    (advance p k st).outcome = .error (.error e) ∧
      (advance p k st).state.regions.gradient = g := by
  unfold advance
  simp only [hg, he, and_self]

end Advance

/-- **Refused and symmetric gradients.** A gradient is refused exactly when it is too asymmetric, and
is left unchanged then. Otherwise its symmetric part is left, and a second call accepts that and does
not change it; nor is a gradient changed that is symmetric already. An iteration does so to the
gradient that it asks for. -/
theorem symmetrize_spec {epsSym : ℝ} (heps : 0 ≤ epsSym) (epsZero : ℝ) (g : Mat ℝ n n) :
    (TooAsymmetric epsZero epsSym g →
      Checked.symmetrizeInPlace epsZero epsSym n g.toArray
        = .ok (.error .asymmetricGradient, g.toArray)) ∧
    (¬TooAsymmetric epsZero epsSym g → ∃ S, IsSymmetricPart S g ∧
      Checked.symmetrizeInPlace epsZero epsSym n g.toArray = .ok (.ok (), S.toArray) ∧
      Checked.symmetrizeInPlace epsZero epsSym n S.toArray = .ok (.ok (), S.toArray)) ∧
    (g.toMatrix.IsSymm →
      Checked.symmetrizeInPlace epsZero epsSym n g.toArray = .ok (.ok (), g.toArray)) ∧
    ∀ (p : Problem ℝ n) (k : ℕ) (st : State ℝ n),
      p.settings.epsZero = epsZero → p.settings.epsSym = epsSym →
      p.objective.gradient k st.regions.point st.regions.gradient = .ok g →
      (TooAsymmetric epsZero epsSym g →
        (advance p k st).outcome = .error (.error .asymmetricGradient) ∧
          (advance p k st).state.regions.gradient = g) ∧
      (¬TooAsymmetric epsZero epsSym g →
        IsSymmetricPart (advance p k st).state.regions.gradient g) := by
  have hsymm : ∀ G : Mat ℝ n n, G.toMatrix.IsSymm →
      Checked.symmetrizeInPlace epsZero epsSym n G.toArray = .ok (.ok (), G.toArray) := by
    intro G hG
    rw [Checked.symmetrizeInPlace_eq, symmetrize_of_isSymm hG heps]
  refine ⟨fun hg => ?refused, fun hg => ⟨symmetricPart g, isSymmetricPart_symmetricPart g, ?accepted,
    hsymm _ (Mat.isSymm_symmetricPart g)⟩, hsymm g, ?iteration⟩
  case refused => rw [Checked.symmetrizeInPlace_eq, symmetrize_of_tooAsymmetric heps hg]
  case accepted => rw [Checked.symmetrizeInPlace_eq, symmetrize_of_not_tooAsymmetric heps hg]
  case iteration =>
    rintro p k st rfl rfl hgrad
    refine ⟨fun hg => ?_, fun hg => ?_⟩
    · exact advance_of_symmetrize_error hgrad (symmetrize_of_tooAsymmetric heps hg)
    · rw [gradient_advance_of_ok hgrad (symmetrize_of_not_tooAsymmetric heps hg)]
      exact isSymmetricPart_symmetricPart g

/-- The matrix of dimension two with a one below the diagonal and zeros elsewhere. -/
noncomputable def lowerUnit : Mat ℝ 2 2 := Mat.ofFn fun r c => if c < r then 1 else 0

/-- The entries off its diagonal differ by its norm. -/
theorem tooAsymmetric_lowerUnit_iff {epsZero epsSym : ℝ} (h : epsZero ≤ 1) :
    TooAsymmetric epsZero epsSym lowerUnit ↔ epsSym < 1 := by
  have hnorm : √(∑ r, ∑ c, lowerUnit.get r c ^ 2) = 1 := by
    simp only [Fin.sum_univ_two, lowerUnit, Mat.get_ofFn]
    norm_num
  unfold TooAsymmetric
  rw [hnorm, max_eq_left h, mul_one]
  constructor
  · rintro ⟨i, j, hlt⟩
    refine hlt.trans_le ?_
    fin_cases i <;> fin_cases j <;> simp [lowerUnit]
  · intro hlt
    refine ⟨1, 0, ?_⟩
    simpa [lowerUnit] using hlt

theorem tenToMinus_lt_one {k : ℕ} (hk : 0 < k) : (tenToMinus k : ℝ) < 1 := by
  have hpow : 1 < Nat.pow 10 k := Nat.one_lt_pow hk.ne' (by decide)
  exact (div_lt_one (Nat.cast_pos.2 (Nat.zero_lt_of_lt hpow))).2 (Nat.one_lt_cast.2 hpow)

/-- It is refused with the default tolerance, and not with a tolerance as large as the norm. -/
theorem lowerUnit_symmetrize_spec :
    (0 : ℝ) ≤ tenToMinus 8 ∧
      Checked.symmetrizeInPlace (tenToMinus 12) (tenToMinus 8) 2 lowerUnit.toArray
        = .ok (.error .asymmetricGradient, lowerUnit.toArray) ∧
      ∃ S : Mat ℝ 2 2,
        Checked.symmetrizeInPlace (tenToMinus 12) 1 2 lowerUnit.toArray = .ok (.ok (), S.toArray) ∧
          S.get 0 1 = 1 / 2 := by
  have hfloor : (tenToMinus 12 : ℝ) ≤ 1 := (tenToMinus_lt_one (by decide)).le
  have hsmall : TooAsymmetric (tenToMinus 12) (tenToMinus 8) lowerUnit :=
    (tooAsymmetric_lowerUnit_iff hfloor).2 (tenToMinus_lt_one (by decide))
  have hlarge : ¬TooAsymmetric (tenToMinus 12) 1 lowerUnit := fun h =>
    lt_irrefl _ ((tooAsymmetric_lowerUnit_iff hfloor).1 h)
  obtain ⟨S, hS, haccepted, -⟩ := (symmetrize_spec zero_le_one (tenToMinus 12) lowerUnit).2.1 hlarge
  refine ⟨(tenToMinus_pos 8).le,
    (symmetrize_spec (tenToMinus_pos 8).le (tenToMinus 12) lowerUnit).1 hsmall, S, haccepted, ?_⟩
  rw [hS.mean]
  simp [lowerUnit]

end FrankWolfe

end Spectrahedron
