import Mathlib.Algebra.Order.Archimedean.Basic
import Spectrahedron.Proofs.Brackets

/-!
# Completeness of the search

Suppose that the scales between `p` and `q` are accepted, and that every other trial points to them.
Then a rejected scale is at most `p` or at least `q`, and becomes the end of the bracket on this
side, so the bracket keeps the whole range. The phases of the search are bounded in turn:

* as long as the scale rises, the last one that has been rejected is a power of two times the first
  one and at most `p`; as long as it falls, this is at least `q`;
* when the other end is found, the bracket is no wider than `p`, and each rejection from then on
  halves it, but it never gets narrower than `q - p`.

**Theorem (`exists_search_eq_ok`).** So the number of trials that a search takes is bounded in terms
of its first scale, `p` and `q`.
-/

namespace Spectrahedron

open Scalar

/-- A way of making trials that points into the range from `p` to `q`: every trial at a positive
scale succeeds; between `p` and `q` it is accepted, from `p` downwards its sensitivity is positive,
and from `q` upwards it is not. -/
def PointsInto {σ χ : Type} (run : σ → ℝ → Step Stop σ (Trial ℝ χ) ℝ) (eps p q : ℝ) : Prop :=
  ∀ state t, 0 < t → ∃ tr, (run state t).outcome = .ok tr ∧ (p < t → t < q → -eps < tr.value) ∧
    (t ≤ p → 0 < tr.sensitivity) ∧ (q ≤ t → tr.sensitivity ≤ 0)

/-! ## Phases -/

/-- The brackets that a search for the range from `p` to `q` may have after a number of rejections,
in the order of its phases. Each rejection beyond the first `A + 1` has halved the bracket. -/
inductive Closing (scale p q : ℝ) (A : ℕ) : ℕ → Bracket ℝ → Prop
  | start : Closing scale p q A 0 (Bracket.start scale)
  | rising {k : ℕ} {lo : ℝ} : lo = scale * 2 ^ k → lo ≤ p →
      Closing scale p q A (k + 1) ⟨lo, none, 2 * lo⟩
  | falling {k : ℕ} {hi : ℝ} : hi * 2 ^ k = scale → q ≤ hi →
      Closing scale p q A (k + 1) ⟨0, some hi, hi / 2⟩
  | closed {k : ℕ} {lo hi : ℝ} : 0 < lo → lo ≤ p → q ≤ hi →
      (hi - lo) * 2 ^ (k - (A + 1)) ≤ p →
      Closing scale p q A k ⟨lo, some hi, (lo + hi) / 2⟩

namespace Closing

variable {scale p q : ℝ} {A B k : ℕ} {b : Bracket ℝ}

/-- The scale rises `A` times at most. -/
theorem rising_lt (hrise : p < scale * 2 ^ A) (hscale : 0 < scale) (h : scale * 2 ^ k ≤ p) :
    k < A :=
  (pow_lt_pow_iff_right₀ one_lt_two).1 (lt_of_mul_lt_mul_left (h.trans_lt hrise) hscale.le)

/-- The scale falls `A` times at most. -/
theorem falling_lt (hfall : scale < q * 2 ^ A) {hi : ℝ} (hhi : 0 < hi) (hq : q ≤ hi)
    (h : hi * 2 ^ k = scale) : k < A := by
  have hlt : hi * 2 ^ k < hi * 2 ^ A := by
    calc hi * 2 ^ k = scale := h
      _ < q * 2 ^ A := hfall
      _ ≤ hi * 2 ^ A := by gcongr
  exact (pow_lt_pow_iff_right₀ one_lt_two).1 (lt_of_mul_lt_mul_left hlt hhi.le)

/-- When the other end is found, no rejection has halved the bracket yet. -/
theorem mul_pow_le_of_lt {width : ℝ} (hk : k < A) (h : width ≤ p) :
    width * 2 ^ (k + 1 + 1 - (A + 1)) ≤ p := by
  rwa [Nat.sub_eq_zero_of_le (by omega), pow_zero, mul_one]

theorem half_mul_pow_le {width : ℝ} (hwidth : 0 ≤ width) (h : width * 2 ^ (k - (A + 1)) ≤ p) :
    width / 2 * 2 ^ (k + 1 - (A + 1)) ≤ p := by
  -- Up to `A` rejections both exponents are zero.
  have hexp : k + 1 - (A + 1) ≤ k - (A + 1) + 1 := by omega
  calc width / 2 * 2 ^ (k + 1 - (A + 1)) ≤ width / 2 * 2 ^ (k - (A + 1) + 1) := by
        gcongr
        exact one_le_two
    _ = width * 2 ^ (k - (A + 1)) := by ring
    _ ≤ p := h

section Bounds

variable (hscale : 0 < scale) (hq : 0 < q) (hpq : p < q) (hrise : p < scale * 2 ^ A)
  (hfall : scale < q * 2 ^ A)

include hscale hq hpq hrise hfall

/-- A rejection leads from one phase to the same or to the next. -/
theorem reject (h : Closing scale p q A k b) (hb : b.Ordered) {sensitivity : ℝ}
    (hup : 0 < sensitivity → b.scale ≤ p) (hdown : sensitivity ≤ 0 → q ≤ b.scale) :
    Closing scale p q A (k + 1) (b.reject sensitivity) := by
  have hreject := Bracket.rejects_reject hb.lo_nonneg sensitivity
  generalize b.reject sensitivity = b' at hreject ⊢
  cases h with
  | start =>
    cases hreject with
    | doubled hpos _ => exact .rising (by rw [pow_zero, mul_one]; rfl) (hup hpos)
    | raised _ hhi => cases hhi
    | halved hneg _ => exact .falling (by rw [pow_zero, mul_one]; rfl) (hdown hneg)
    | lowered _ hlo => exact absurd hlo (lt_irrefl 0)
  | @rising k lo hlo hle =>
    cases hreject with
    | doubled hpos _ => exact .rising (by rw [hlo]; ring) (hup hpos)
    | raised _ hhi => cases hhi
    | halved _ hzero =>
      have hpos : 0 < lo := hlo ▸ mul_pos hscale (pow_pos two_pos k)
      exact absurd hzero hpos.ne'
    | lowered hneg hpos =>
      -- The range is between the last two scales, and the second is twice the first.
      have hk : k < A := rising_lt hrise hscale (hlo ▸ hle)
      refine .closed hpos hle (hdown hneg) (mul_pow_le_of_lt hk ?_)
      dsimp only
      linarith
  | @falling k hi hhi hle =>
    cases hreject with
    | doubled _ hnone => cases hnone
    | raised hpos hsome =>
      cases hsome
      have hk : k < A := falling_lt hfall (hq.trans_le hle) hle hhi
      refine .closed (half_pos (hq.trans_le hle)) (hup hpos) hle (mul_pow_le_of_lt hk ?_)
      have := hup hpos
      dsimp only at this ⊢
      linarith
    | halved hneg _ => exact .falling (by rw [← hhi]; ring) (hdown hneg)
    | lowered _ hlo => exact absurd hlo (lt_irrefl 0)
  | @closed _ lo hi hlo hle hq' hwidth =>
    have hlt : lo < hi := hle.trans_lt (hpq.trans_le hq')
    have hhalf := half_mul_pow_le (sub_pos.2 hlt).le hwidth
    cases hreject with
    | doubled _ hnone => cases hnone
    | raised hpos hsome =>
      cases hsome
      refine .closed (by dsimp only; linarith) (hup hpos) hq' ?_
      rwa [show hi - (lo + hi) / 2 = (hi - lo) / 2 by ring]
    | halved _ hzero => exact absurd hzero hlo.ne'
    | lowered hneg _ =>
      refine .closed hlo hle (hdown hneg) ?_
      rwa [show (lo + hi) / 2 - lo = (hi - lo) / 2 by ring]

/-- The number of rejections is bounded. -/
theorem lt_of_lt_pow (hwidth : p < (q - p) * 2 ^ B) (h : Closing scale p q A k b) :
    k < A + 1 + B := by
  cases h with
  | start => omega
  | @rising k lo hlo hle =>
    have hk : k < A := rising_lt hrise hscale (hlo ▸ hle)
    omega
  | @falling k hi hhi hle =>
    have hk : k < A := falling_lt hfall (hq.trans_le hle) hle hhi
    omega
  | @closed _ lo hi hlo hle hq' hclosed =>
    have hlt : (q - p) * 2 ^ (k - (A + 1)) < (q - p) * 2 ^ B := by
      calc (q - p) * 2 ^ (k - (A + 1)) ≤ (hi - lo) * 2 ^ (k - (A + 1)) := by gcongr
        _ ≤ p := hclosed
        _ < (q - p) * 2 ^ B := hwidth
    have hk : k - (A + 1) < B :=
      (pow_lt_pow_iff_right₀ one_lt_two).1 (lt_of_mul_lt_mul_left hlt (sub_pos.2 hpq).le)
    omega

end Bounds

end Closing

/-! ## The run -/

section Run

variable {σ χ : Type} {run : σ → ℝ → Step Stop σ (Trial ℝ χ) ℝ} {eps scale p q : ℝ} {A B : ℕ}
  {state : σ} {events : Array (Event ℝ)}

/-- Where a trial is rejected, its sensitivity tells on which side of the range it is. -/
theorem PointsInto.sides (h : PointsInto run eps p q) {t : ℝ} (ht : 0 < t) {tr : Trial ℝ χ}
    {state : σ} (hok : (run state t).outcome = .ok tr) (hreject : ¬-eps < tr.value) :
    (0 < tr.sensitivity → t ≤ p) ∧ (tr.sensitivity ≤ 0 → q ≤ t) := by
  obtain ⟨tr', hok', haccept, hup, hdown⟩ := h state t ht
  obtain rfl : tr' = tr := Except.ok.inj (hok'.symm.trans hok)
  constructor
  · intro hpos
    by_contra hlt
    rcases lt_or_ge t q with hq | hq
    · exact hreject (haccept (not_le.1 hlt) hq)
    · exact absurd hpos (hdown hq).not_gt
  · intro hneg
    by_contra hlt
    rcases lt_or_ge p t with hp | hp
    · exact hreject (haccept hp (not_le.1 hlt))
    · exact absurd (hup hp) hneg.not_gt

variable (hscale : 0 < scale) (hq : 0 < q) (hpq : p < q) (hrise : p < scale * 2 ^ A)
  (hfall : scale < q * 2 ^ A)

include hscale hq hpq hrise hfall

theorem Passes.closing {s : Stage σ ℝ} (hrun : PointsInto run eps p q)
    (h : Passes run eps (Stage.start scale state events) s) :
    Closing scale p q A s.rejected.length s.bracket := by
  induction h with
  | start => exact .start
  | step hpasses hok hreject ih =>
    have hordered := (hpasses.sound (Stage.sound_start hscale state events)).ordered
    have hsides := hrun.sides hordered.scale_pos hok hreject
    exact ih.reject hscale hq hpq hrise hfall hordered hsides.1 hsides.2

/-- A search succeeds within a number of trials that is given by powers of two. -/
theorem PointsInto.exists_search_of_lt_pow (hrun : PointsInto run eps p q)
    (hwidth : p < (q - p) * 2 ^ B) {maxIter : ℕ} (hmax : A + 1 + B ≤ maxIter) :
    ∃ sol, (search run eps maxIter maxIter 0 (Bracket.start scale) state events).outcome
      = .ok sol := by
  have h₀ := Stage.sound_start hscale state events
  have hstart : Passes run eps (Stage.start scale state events) _ := .start
  have hends := hstart.ends_search (fun h _ => h.admissible_reject h₀ _) (Nat.zero_le maxIter)
  generalize hstep : Stage.search run (Stage.start scale state events) eps maxIter = step at hends
  have hsearch : search run eps maxIter maxIter 0 (Bracket.start scale) state events = step := hstep
  rw [hsearch]
  cases hends with
  | accepted => exact ⟨_, rfl⟩
  | @failed s stop h _ herror =>
    obtain ⟨tr, hok, -⟩ := hrun s.state s.bracket.scale (h.sound h₀).ordered.scale_pos
    cases herror.symm.trans hok
  | @exhausted s h hlength =>
    have hlt := (h.closing hscale hq hpq hrise hfall hrun).lt_of_lt_pow hscale hq hpq hrise hfall
      hwidth
    omega

end Run

/-- **The search is complete.** For every first scale and every range of positive scales there is a
number of trials within which each search succeeds, whatever its trials are, if they point into the
range: the number depends on the first scale and the range only. In particular this holds of the
search for a feasible matrix, if its trials do. -/
theorem exists_search_eq_ok {scale p q : ℝ} (hscale : 0 < scale) (hp : 0 < p) (hpq : p < q) :
    ∃ N : ℕ,
      (∀ {σ χ : Type} (run : σ → ℝ → Step Stop σ (Trial ℝ χ) ℝ) (eps : ℝ),
        PointsInto run eps p q → ∀ maxIter, N ≤ maxIter → ∀ state events,
          ∃ sol, (search run eps maxIter maxIter 0 (Bracket.start scale) state events).outcome
            = .ok sol) ∧
      ∀ (problem : Feasibility ℝ) (par : SearchSettings ℝ), par.traceInit = scale →
        PointsInto (Feasibility.solveScale problem.system par) problem.system.eps p q →
        N ≤ par.maxIter → ∃ sol, (problem.solve par).outcome = .ok sol := by
  have hq : 0 < q := hp.trans hpq
  obtain ⟨A, hA⟩ := pow_unbounded_of_one_lt (max (p / scale) (scale / q)) one_lt_two
  obtain ⟨B, hB⟩ := pow_unbounded_of_one_lt (p / (q - p)) one_lt_two
  obtain ⟨hrise, hfall⟩ := max_lt_iff.1 hA
  rw [div_lt_iff₀' hscale] at hrise
  rw [div_lt_iff₀' hq] at hfall
  rw [div_lt_iff₀' (sub_pos.2 hpq)] at hB
  refine ⟨A + 1 + B, fun run eps hrun maxIter hmax state events => ?_, ?_⟩
  · exact hrun.exists_search_of_lt_pow hscale hq hpq hrise hfall hB hmax
  · rintro problem par rfl hrun hmax
    exact hrun.exists_search_of_lt_pow hscale hq hpq hrise hfall hB hmax

namespace Feasibility

theorem pointsInto_stripSystem {low high : ℝ} (hlt : low < high) {par : SearchSettings ℝ}
    (hsolver : par.solver = Settings.default) (hcurv : par.curvature = none) :
    PointsInto (solveScale (stripSystem low high) par) (1 / 8) low high := by
  intro work t ht
  obtain ⟨tr, hok, haccept, -, hsens⟩ :=
    exists_trial_stripSystem low high par hsolver hcurv work ht
  refine ⟨tr, hok, haccept, fun hle => hsens.2 ?_, fun hge => not_lt.1 (mt hsens.1 ?_)⟩
  · linarith
  · linarith

/-- The range from one to two is found from the scale one hundred and from one hundredth, by the
trials that the default settings make. -/
theorem stripSystem_exists_search_eq_ok :
    ∃ N, ∀ maxIter, N ≤ maxIter → ∀ scale ∈ ({100, 1 / 100} : Set ℝ),
      ∃ sol, (solve ⟨stripSystem 1 2, #[]⟩
        { SearchSettings.default with maxIter := maxIter, traceInit := scale }).outcome
        = .ok sol := by
  obtain ⟨N, -, hhigh⟩ :=
    exists_search_eq_ok (by norm_num : (0 : ℝ) < 100) one_pos (one_lt_two (α := ℝ))
  obtain ⟨M, -, hlow⟩ :=
    exists_search_eq_ok (by norm_num : (0 : ℝ) < 1 / 100) one_pos (one_lt_two (α := ℝ))
  refine ⟨max N M, fun maxIter hmax scale hscale => ?_⟩
  rcases hscale with rfl | rfl
  · exact hhigh _ _ rfl (pointsInto_stripSystem one_lt_two rfl rfl) (le_of_max_le_left hmax)
  · exact hlow _ _ rfl (pointsInto_stripSystem one_lt_two rfl rfl) (le_of_max_le_right hmax)

end Feasibility

end Spectrahedron
