import Spectrahedron.Proofs.Smoothness
import Spectrahedron.Proofs.Violation

/-!
# The shift of the exponents

Before exponents are exponentiated, the largest of them is subtracted from each. One of the shifted
exponents is zero and none is positive, so no exponential exceeds one, and the sum of `m` of them,
which is inverted and whose logarithm is taken, lies between one and `m`. The shift cancels in the
weights and comes back in the logarithm of the sum.

**Theorem (`Surrogate.shift_exact`).** The soft maximum and its weights are those of the exponents as
they are. The exponential is needed up to zero only, the logarithm and the reciprocal between one and
`m` only. So the surrogate, its gradient and its sensitivity are given by the formulas without a
shift.
-/

namespace Spectrahedron

open Scalar Matrix

/-! ## Shifted exponents -/

/-- The sum of the exponentials of the shifted exponents. -/
def shiftedSum {α : Type} [Scalar α] {m : ℕ} (z : Vector α m) (h : 0 < m) : α :=
  sum fun i : Fin m => exp (z.get i - greatest z h)

theorem softMax_eq {α : Type} [Scalar α] {m : ℕ} (z : Vector α m) (h : 0 < m) :
    softMax z h = ⟨scale (recip (shiftedSum z h)) (z.map fun x => exp (x - greatest z h)),
      greatest z h + log (shiftedSum z h)⟩ := by
  unfold softMax shiftedSum
  simp only [Vec.get_map]

section SoftMax

variable {m : ℕ} (z : Vector ℝ m) (h : 0 < m)

/-- The shift is the largest of the exponents. -/
theorem isGreatest_greatest : IsGreatest (Set.range z.get) (greatest z h) := by
  refine ⟨?_, ?_⟩
  · refine foldl_invariant (fun _ s => s ∈ Set.range z.get) ⟨⟨0, h⟩, rfl⟩ fun i s hs => ?_
    rw [larger_eq]
    rcases max_choice s (z.get i) with hmax | hmax
    · rwa [hmax]
    · rw [hmax]
      exact ⟨i, rfl⟩
  · -- After `k` steps the first `k` exponents have been compared.
    have hscan : ∀ i : Fin m, i.val < m → z.get i ≤ greatest z h := by
      refine foldl_invariant (fun k s => ∀ i : Fin m, i.val < k → z.get i ≤ s)
        (fun i hi => absurd hi (Nat.not_lt_zero _)) fun j s hs i hi => ?_
      rw [larger_eq]
      rcases Nat.lt_succ_iff_lt_or_eq.1 hi with hlt | heq
      · exact (hs i hlt).trans (le_max_left _ _)
      · obtain rfl : i = j := Fin.ext heq
        exact le_max_right _ _
    rintro _ ⟨i, rfl⟩
    exact hscan i i.isLt

theorem sub_greatest_nonpos (i : Fin m) : z.get i - greatest z h ≤ 0 :=
  sub_nonpos.2 ((isGreatest_greatest z h).2 ⟨i, rfl⟩)

/-- No term of the sum exceeds one, and the term of the largest exponent is one. -/
theorem shiftedSum_mem_Icc : shiftedSum z h ∈ Set.Icc 1 (m : ℝ) := by
  have hsum : shiftedSum z h = ∑ i, Real.exp (z.get i - greatest z h) := sum_eq _
  rw [hsum]
  refine ⟨?_, ?_⟩
  · obtain ⟨⟨i, hi⟩, -⟩ := isGreatest_greatest z h
    calc (1 : ℝ) = Real.exp (z.get i - greatest z h) := by rw [hi, sub_self, Real.exp_zero]
      _ ≤ ∑ i, Real.exp (z.get i - greatest z h) :=
        Finset.single_le_sum (fun j _ => (Real.exp_pos (z.get j - greatest z h)).le)
          (Finset.mem_univ i)
  · calc ∑ i, Real.exp (z.get i - greatest z h) ≤ ∑ _ : Fin m, (1 : ℝ) :=
        Finset.sum_le_sum fun i _ => Real.exp_le_one_iff.2 (sub_greatest_nonpos z h i)
      _ = m := by rw [Finset.sum_const, Finset.card_univ, Fintype.card_fin, nsmul_one]

theorem weights_softMax_pos (i : Fin m) : 0 < (softMax z h).weights.get i := by
  rw [get_weights_softMax]
  exact div_pos (Real.exp_pos _) (sum_exp_pos h _)

/-! ## Confined functions -/

section Confined

variable (bound : ℝ) (wrongExp wrongLog : ℝ → ℝ) (wrongDiv : ℝ → ℝ → ℝ)

/-- The real numbers with an exponential that is right up to zero only, and with a logarithm and a
division that are right between one and a bound only. -/
noncomputable abbrev Scalar.confined : Scalar ℝ :=
  { Scalar.instReal with
    exp := fun x => if x ≤ 0 then Real.exp x else wrongExp x
    log := fun x => if x ∈ Set.Icc 1 bound then Real.log x else wrongLog x
    div := fun x y => if y ∈ Set.Icc 1 bound then x / y else wrongDiv x y }

/-- Right functions are needed nowhere else. -/
theorem softMax_confined :
    @softMax ℝ (confined m wrongExp wrongLog wrongDiv) m z h = softMax z h := by
  have hexp : ∀ i : Fin m, @exp ℝ (confined m wrongExp wrongLog wrongDiv) (z.get i - greatest z h)
      = exp (z.get i - greatest z h) := fun i => if_pos (sub_greatest_nonpos z h i)
  have hsum : @shiftedSum ℝ (confined m wrongExp wrongLog wrongDiv) m z h = shiftedSum z h :=
    congrArg (@sum ℝ Scalar.instReal m) (funext hexp)
  have hmap : (z.map fun x =>
        @exp ℝ (confined m wrongExp wrongLog wrongDiv) (x - greatest z h))
      = z.map fun x => exp (x - greatest z h) := by
    refine Vec.ext_get fun i => ?_
    rw [Vec.get_map, Vec.get_map, hexp i]
  have hrecip : @recip ℝ (confined m wrongExp wrongLog wrongDiv) (shiftedSum z h)
      = recip (shiftedSum z h) := if_pos (shiftedSum_mem_Icc z h)
  have hlog : @log ℝ (confined m wrongExp wrongLog wrongDiv) (shiftedSum z h)
      = log (shiftedSum z h) := if_pos (shiftedSum_mem_Icc z h)
  calc @softMax ℝ (confined m wrongExp wrongLog wrongDiv) m z h
      = ⟨scale (@recip ℝ (confined m wrongExp wrongLog wrongDiv)
            (@shiftedSum ℝ (confined m wrongExp wrongLog wrongDiv) m z h))
          (z.map fun x => @exp ℝ (confined m wrongExp wrongLog wrongDiv) (x - greatest z h)),
        greatest z h + @log ℝ (confined m wrongExp wrongLog wrongDiv)
          (@shiftedSum ℝ (confined m wrongExp wrongLog wrongDiv) m z h)⟩ :=
        @softMax_eq ℝ (confined m wrongExp wrongLog wrongDiv) m z h
    _ = ⟨scale (recip (shiftedSum z h)) (z.map fun x => exp (x - greatest z h)),
          greatest z h + log (shiftedSum z h)⟩ := by rw [hsum, hrecip, hlog, hmap]
    _ = softMax z h := (softMax_eq z h).symm

end Confined

end SoftMax

/-! ## The surrogate without a shift -/

namespace Surrogate

variable (f : Surrogate ℝ) (X : Mat ℝ f.system.dim f.system.dim)

theorem get_exponents (i : Fin f.system.count) :
    (f.exponents X).get i = f.temperature * f.violation X i := by
  rw [exponents, Vec.get_ofFn, violation_eq]

/-- The sum of the exponentials `exp (M (t Tr (A_i X) - b_i))`. -/
noncomputable def plainSum : ℝ := ∑ i, Real.exp (f.temperature * f.violation X i)

/-- The share of a constraint in that sum. -/
noncomputable def plainWeight (i : Fin f.system.count) : ℝ :=
  Real.exp (f.temperature * f.violation X i) / f.plainSum X

theorem weight_eq_plainWeight (i : Fin f.system.count) : f.weight X i = f.plainWeight X i := by
  unfold weight soft plainWeight plainSum
  rw [get_weights_softMax]
  simp only [get_exponents]

theorem value_eq_plain : f.value X = -(1 / f.temperature) * Real.log (f.plainSum X) := by
  unfold value soft plainSum
  rw [logSum_softMax]
  simp only [get_exponents]
  ring

theorem toMatrix_gradient_eq_plain (old : Mat ℝ f.system.dim f.system.dim) :
    (f.gradient X old).toMatrix = -f.scale • ∑ i, f.plainWeight X i •
      ((1 / 2 : ℝ) •
        ((f.system.matrices.get i).toMatrix + (f.system.matrices.get i).toMatrixᵀ)) := by
  rw [toMatrix_gradient, Finset.smul_sum]
  refine Finset.sum_congr rfl fun i _ => ?_
  rw [weight_eq_plainWeight, smul_smul, smul_smul]
  congr 1
  ring

theorem sensitivity_eq_plain :
    f.sensitivity X
      = -∑ i, f.plainWeight X i * ((f.system.matrices.get i).toMatrix * X.toMatrix).trace := by
  rw [sensitivity_eq]
  simp only [weight_eq_plainWeight, Mat.traceProduct_eq_trace]

/-- **The shift is exact and keeps everything in range.** For all exponents, the logarithm of the sum
and the weights are those of the exponents themselves; the weights are positive and have the sum one.
No exponential is taken of a positive number, the sum that is inverted and passed to the logarithm
lies between one and the number of the exponents, and what these functions are elsewhere does not
matter. So the value, the gradient and the sensitivity of each surrogate are, at every matrix, given
by the formulas without a shift. -/
theorem shift_exact :
    (∀ {m : ℕ} (z : Vector ℝ m) (h : 0 < m),
      ((softMax z h).logSum = Real.log (∑ i, Real.exp (z.get i)) ∧
        ∀ i, (softMax z h).weights.get i = Real.exp (z.get i) / ∑ j, Real.exp (z.get j)) ∧
      ((∀ i, z.get i - greatest z h ≤ 0) ∧ shiftedSum z h ∈ Set.Icc 1 (m : ℝ) ∧
        ∀ wrongExp wrongLog wrongDiv,
          @softMax ℝ (confined m wrongExp wrongLog wrongDiv) m z h = softMax z h) ∧
      (∀ i, 0 < (softMax z h).weights.get i) ∧ ∑ i, (softMax z h).weights.get i = 1) ∧
    ∀ (f : Surrogate ℝ) (X old : Mat ℝ f.system.dim f.system.dim),
      f.value X = -(1 / f.temperature) * Real.log (f.plainSum X) ∧
      (f.gradient X old).toMatrix = -f.scale • ∑ i, f.plainWeight X i • ((1 / 2 : ℝ) •
        ((f.system.matrices.get i).toMatrix + (f.system.matrices.get i).toMatrixᵀ)) ∧
      f.sensitivity X
        = -∑ i, f.plainWeight X i * ((f.system.matrices.get i).toMatrix * X.toMatrix).trace := by
  refine ⟨fun z h => ⟨⟨?_, ?_⟩, ⟨?_, ?_, ?_⟩, ?_, ?_⟩, fun f X old => ⟨?_, ?_, ?_⟩⟩
  · exact logSum_softMax z h
  · exact get_weights_softMax z h
  · exact sub_greatest_nonpos z h
  · exact shiftedSum_mem_Icc z h
  · exact softMax_confined z h
  · exact weights_softMax_pos z h
  · exact sum_weights_softMax z h
  · exact f.value_eq_plain X
  · exact f.toMatrix_gradient_eq_plain X old
  · exact f.sensitivity_eq_plain X

/-- Two exponents far apart. -/
abbrev farExponents : Vector ℝ 2 := #v[1000, 0]

/-- At the scale two, the identity violates one constraint of the corner system by four and meets the
other. -/
theorem violation_cornerSystem_identity (i : Fin 2) :
    Surrogate.violation ⟨cornerSystem, 2⟩ (Mat.identity ℝ 2) i = if i.val = 0 then 4 else 0 := by
  rw [violation_eq, traceProduct_cornerSystem_identity, Vec.get_ofFn]
  split
  · norm_num
  · norm_num

/-- The exponents far apart have their soft maximum even where an exponential of a positive number is
zero, and so are logarithms and quotients out of range. The value of the corner system at the
identity is that of two exponents, four and zero. -/
theorem farExponents_shift_exact :
    0 < 2 ∧
    (softMax farExponents Nat.two_pos).logSum = Real.log (Real.exp 1000 + Real.exp 0) ∧
    shiftedSum farExponents Nat.two_pos ∈ Set.Icc 1 2 ∧
    (@softMax ℝ (confined (2 : ℕ) (fun _ => 0) (fun _ => 0) fun _ _ => 0) 2 farExponents
      Nat.two_pos).logSum = Real.log (Real.exp 1000 + Real.exp 0) ∧
    Surrogate.value ⟨cornerSystem, 2⟩ (Mat.identity ℝ 2)
      = -Real.log (Real.exp 4 + Real.exp 0) := by
  obtain ⟨hsoft, hplain⟩ := shift_exact
  obtain ⟨⟨hlog, -⟩, ⟨-, hrange, hconfined⟩, -, -⟩ := hsoft farExponents Nat.two_pos
  have hfar : Real.log (∑ i, Real.exp (farExponents.get i))
      = Real.log (Real.exp 1000 + Real.exp 0) := by
    rw [Fin.sum_univ_two]
    rfl
  have hcorner := (hplain ⟨cornerSystem, 2⟩ (Mat.identity ℝ 2) Feasibility.skewMatrix).1
  have hsum : Surrogate.plainSum ⟨cornerSystem, 2⟩ (Mat.identity ℝ 2)
      = Real.exp 4 + Real.exp 0 := by
    simp only [plainSum, temperature_cornerSystem, Fin.sum_univ_two, one_mul,
      violation_cornerSystem_identity, Fin.val_zero, Fin.val_one, if_true, one_ne_zero, if_false]
  rw [hlog, hfar, hconfined, hlog, hfar, hcorner, hsum, temperature_cornerSystem]
  refine ⟨Nat.two_pos, rfl, ?_, rfl, ?_⟩
  · exact_mod_cast hrange
  · ring

end Surrogate

end Spectrahedron
