import Spectrahedron.Proofs.Violation

/-!
# Brackets of a search

What a rejection does to a bracket depends on which of its ends are known. The scale is doubled or
halved as long as one of them is not; after that it is the middle of both, so that the next
rejection, which moves one end there, halves the bracket.

**Theorem (`search_narrows`).** In exact arithmetic this goes on for ever, whatever the trials
answer: the scale stays strictly between the ends, each end is a scale that has been rejected on its
side, no scale is tried twice, and a search never leaves the range of the scalars.
-/

namespace Spectrahedron

open Scalar

/-! ## One rejection -/

namespace Bracket

variable {b : Bracket ℝ} {sensitivity : ℝ}

/-- The bracket after a rejection with a sensitivity, by the ends that are known. -/
inductive Rejects (b : Bracket ℝ) (sensitivity : ℝ) : Bracket ℝ → Prop
  | doubled : 0 < sensitivity → b.hi = none →
      Rejects b sensitivity ⟨b.scale, none, 2 * b.scale⟩
  | raised {h : ℝ} : 0 < sensitivity → b.hi = some h →
      Rejects b sensitivity ⟨b.scale, some h, (b.scale + h) / 2⟩
  | halved : sensitivity ≤ 0 → b.lo = 0 →
      Rejects b sensitivity ⟨0, some b.scale, b.scale / 2⟩
  | lowered : sensitivity ≤ 0 → 0 < b.lo →
      Rejects b sensitivity ⟨b.lo, some b.scale, (b.lo + b.scale) / 2⟩

theorem rejects_reject (hlo : 0 ≤ b.lo) (sensitivity : ℝ) :
    b.Rejects sensitivity (b.reject sensitivity) := by
  unfold Bracket.reject
  rw [two_eq]
  split
  · rename_i hpos
    cases hhi : b.hi with
    | none =>
      rw [mul_comm]
      exact .doubled hpos hhi
    | some h => exact .raised hpos hhi
  · rename_i hneg
    rcases hlo.eq_or_lt with hzero | hlo
    · rw [if_neg hzero.not_lt, ← hzero]
      exact .halved (not_lt.1 hneg) hzero.symm
    · rw [if_pos hlo]
      exact .lowered (not_lt.1 hneg) hlo

/-- Only the sign of the sensitivity matters. -/
theorem reject_congr (b : Bracket ℝ) {sensitivity sensitivity' : ℝ}
    (h : 0 < sensitivity ↔ 0 < sensitivity') : b.reject sensitivity = b.reject sensitivity' := by
  unfold Bracket.reject
  simp only [h]

/-- Between two known ends the scale is in the middle. -/
def Centered (b : Bracket ℝ) : Prop := 0 < b.lo → ∀ h ∈ b.hi, h - b.scale = b.scale - b.lo

theorem Ordered.centered_reject (hb : b.Ordered) : (b.reject sensitivity).Centered := by
  have hreject := rejects_reject hb.lo_nonneg sensitivity
  generalize b.reject sensitivity = b' at hreject ⊢
  intro hlo
  cases hreject with
  | doubled => rintro _ ⟨⟩
  | raised =>
    rintro _ ⟨⟩
    dsimp only
    ring
  | halved => exact absurd hlo (lt_irrefl 0)
  | lowered =>
    rintro _ ⟨⟩
    dsimp only
    ring

/-- The progress from a bracket to the next: no end moves away from the other, the scale is doubled
if there is no upper end then, and halved if there is no lower one, and if both were known, their
distance is halved. -/
structure Narrows (b b' : Bracket ℝ) : Prop where
  lo_le : b.lo ≤ b'.lo
  hi_le : ∀ h ∈ b.hi, ∃ h' ∈ b'.hi, h' ≤ h
  doubles : b'.hi = none → b'.scale = 2 * b.scale
  halves : b'.lo = 0 → b'.scale = b.scale / 2
  bisects : 0 < b.lo → ∀ h ∈ b.hi, ∃ h' ∈ b'.hi, h' - b'.lo = (h - b.lo) / 2

theorem Ordered.narrows_reject (hb : b.Ordered) (hcenter : b.Centered) :
    b.Narrows (b.reject sensitivity) := by
  have hscale := hb.scale_pos
  have hreject := rejects_reject hb.lo_nonneg sensitivity
  generalize b.reject sensitivity = b' at hreject ⊢
  cases hreject with
  | doubled _ hhi =>
    refine ⟨hb.lo_lt.le, ?_, fun _ => rfl, fun hzero => absurd hzero hscale.ne', ?_⟩
    · intro h hh
      cases hhi.symm.trans hh
    · intro _ h hh
      cases hhi.symm.trans hh
  | @raised h _ hhi =>
    refine ⟨hb.lo_lt.le, ?_, nofun, fun hzero => absurd hzero hscale.ne', ?_⟩
    · intro h' hh'
      exact ⟨h', hhi ▸ hh', le_rfl⟩
    · intro hlo h' hh'
      have hmiddle := hcenter hlo h' hh'
      exact ⟨h', hhi ▸ hh', by dsimp only; linarith⟩
  | halved _ hzero =>
    refine ⟨hzero.le, ?_, nofun, fun _ => rfl, ?_⟩
    · intro h hh
      exact ⟨b.scale, rfl, (hb.lt_hi h hh).le⟩
    · intro hlo
      exact absurd hzero hlo.ne'
  | lowered _ hlo =>
    refine ⟨le_rfl, ?_, nofun, fun hzero => absurd hzero hlo.ne', ?_⟩
    · intro h hh
      exact ⟨b.scale, rfl, (hb.lt_hi h hh).le⟩
    · intro _ h hh
      have hmiddle := hcenter hlo h hh
      exact ⟨b.scale, rfl, by dsimp only; linarith⟩

/-- Each end that is known is a scale that has been rejected, the lower one with a positive
sensitivity and the upper one without. -/
structure EndsAt (b : Bracket ℝ) (rejected : List (Rejection ℝ)) : Prop where
  lo : b.lo ≠ 0 → ∃ r ∈ rejected, r.scale = b.lo ∧ 0 < r.sensitivity
  hi : ∀ h ∈ b.hi, ∃ r ∈ rejected, r.scale = h ∧ r.sensitivity ≤ 0

theorem EndsAt.reject {rejected : List (Rejection ℝ)} (h : b.EndsAt rejected) :
    (b.reject sensitivity).EndsAt (⟨b.scale, sensitivity⟩ :: rejected) := by
  have hold : ∀ {P : Rejection ℝ → Prop}, (∃ r ∈ rejected, P r) →
      ∃ r ∈ (⟨b.scale, sensitivity⟩ :: rejected : List (Rejection ℝ)), P r := by
    rintro P ⟨r, hr, hP⟩
    exact ⟨r, List.mem_cons_of_mem _ hr, hP⟩
  unfold Bracket.reject
  split
  · rename_i hpos
    refine ⟨fun _ => ⟨_, List.mem_cons_self, rfl, hpos⟩, fun u hu => hold (h.hi u hu)⟩
  · rename_i hneg
    refine ⟨fun hlo => hold (h.lo hlo), ?_⟩
    rintro _ ⟨⟩
    exact ⟨_, List.mem_cons_self, rfl, not_lt.1 hneg⟩

/-- A rejected scale rules itself out. -/
theorem discards_scale (b : Bracket ℝ) (sensitivity : ℝ) : b.Discards sensitivity b.scale := by
  unfold Discards
  split
  · exact le_rfl
  · exact le_rfl

end Bracket

/-! ## The run -/

section Run

variable {σ χ : Type} {run : σ → ℝ → Step Stop σ (Trial ℝ χ) ℝ} {eps : ℝ} {s₀ s : Stage σ ℝ}

/-- The scales that have been tried, up to that of the stage. -/
def Stage.tried (s : Stage σ ℝ) : List ℝ := s.bracket.scale :: s.rejected.map Rejection.scale

/-- What holds of every stage. -/
structure Stage.Sound (s : Stage σ ℝ) : Prop where
  ordered : s.bracket.Ordered
  centered : s.bracket.Centered
  ends : s.bracket.EndsAt s.rejected
  excludes : ∀ r ∈ s.rejected, s.bracket.Excludes r.scale
  nodup : (s.rejected.map Rejection.scale).Nodup

theorem Stage.sound_start {scale : ℝ} (hscale : 0 < scale) (state : σ)
    (events : Array (Event ℝ)) : (Stage.start scale state events).Sound where
  ordered := Bracket.ordered_start hscale
  centered := fun hlo => absurd hlo (lt_irrefl 0)
  ends := ⟨fun hlo => absurd rfl hlo, fun _ h => by cases h⟩
  excludes := fun _ hr => absurd hr List.not_mem_nil
  nodup := List.nodup_nil

/-- The scale of a stage has not been tried before. -/
theorem Stage.Sound.nodup_tried (h : s.Sound) : s.tried.Nodup := by
  refine List.nodup_cons.2 ⟨fun hmem => ?_, h.nodup⟩
  obtain ⟨r, hr, hscale⟩ := List.mem_map.1 hmem
  exact h.ordered.not_excludes_scale (hscale ▸ h.excludes r hr)

theorem Stage.Sound.reject (h : s.Sound) (t : Trial ℝ χ) : (s.reject run t).Sound where
  ordered := h.ordered.reject _
  centered := h.ordered.centered_reject
  ends := h.ends.reject
  excludes := by
    intro r hr
    refine h.ordered.excludes_reject_iff.2 ?_
    rcases List.mem_cons.1 hr with rfl | hr
    · exact Or.inr (s.bracket.discards_scale _)
    · exact Or.inl (h.excludes r hr)
  nodup := h.nodup_tried

theorem Passes.sound (h : Passes run eps s₀ s) (h₀ : s₀.Sound) : s.Sound := by
  induction h with
  | start => exact h₀
  | step _ _ _ ih => exact ih.reject _

/-- No scale that follows a rejected one is out of range. -/
theorem Passes.admissible_reject (h : Passes run eps s₀ s) (h₀ : s₀.Sound) (sensitivity : ℝ) :
    Bracket.admissible (s.bracket.reject sensitivity).scale :=
  ((h.sound h₀).ordered.reject sensitivity).admissible

end Run

/-- **The brackets of a search.** Whatever way of making trials a search is given, and however they
answer from one to the next: before every trial the scale is strictly between the ends of the
bracket, each end that is known is a scale that has been rejected on its side, and the scale has not
been tried before. Each rejection narrows the bracket, by doubling or halving the scale while an end
is missing and by halving the bracket afterwards, and leads to a scale that can be tried. So the
search ends with an accepted trial, with one that fails, or when it has used up its trials, but
never for a scale out of range. -/
theorem search_narrows {σ χ : Type} (run : σ → ℝ → Step Stop σ (Trial ℝ χ) ℝ) (eps : ℝ) {scale : ℝ}
    (hscale : 0 < scale) (state : σ) (events : Array (Event ℝ)) :
    (∀ s, Passes run eps (Stage.start scale state events) s →
      (0 ≤ s.bracket.lo ∧ s.bracket.lo < s.bracket.scale ∧
        ∀ h ∈ s.bracket.hi, s.bracket.scale < h) ∧
      s.bracket.EndsAt s.rejected ∧ s.tried.Nodup ∧
      ∀ sensitivity, s.bracket.Narrows (s.bracket.reject sensitivity) ∧
        Bracket.admissible (s.bracket.reject sensitivity).scale) ∧
    ∀ maxIter,
      StageEnds run eps (Stage.start scale state events) maxIter
        (search run eps maxIter maxIter 0 (Bracket.start scale) state events) ∧
      ∀ s, Passes run eps (Stage.start scale state events) s → s.rejected.length ≤ maxIter →
        search run eps maxIter maxIter 0 (Bracket.start scale) state events
          = s.search run eps maxIter := by
  have h₀ := Stage.sound_start hscale state events
  refine ⟨fun s hs => ⟨?_, ?_, ?_, fun sensitivity => ⟨?_, ?_⟩⟩,
    fun maxIter => ⟨?_, fun s hs hle => ?_⟩⟩
  · have hordered := (hs.sound h₀).ordered
    exact ⟨hordered.lo_nonneg, hordered.lo_lt, hordered.lt_hi⟩
  · exact (hs.sound h₀).ends
  · exact (hs.sound h₀).nodup_tried
  · exact (hs.sound h₀).ordered.narrows_reject (hs.sound h₀).centered
  · exact hs.admissible_reject h₀ sensitivity
  · have hstart : Passes run eps (Stage.start scale state events) _ := .start
    exact hstart.ends_search (fun h _ => h.admissible_reject h₀ _) (Nat.zero_le maxIter)
  · exact hs.search_eq (fun h _ => h.admissible_reject h₀ _) hle

namespace Feasibility

/-- A trial in a strip is accepted within it, rejected where it misses it by the accuracy, and
points to its middle. -/
theorem exists_trial_stripSystem (low high : ℝ) (par : SearchSettings ℝ)
    (hsolver : par.solver = Settings.default) (hcurv : par.curvature = none) (work : Array ℝ)
    {t : ℝ} (ht : 0 < t) :
    ∃ tr, (solveScale (stripSystem low high) par work t).outcome = .ok tr ∧
      (low < t → t < high → -(1 / 8) < tr.value) ∧
      (1 / 8 ≤ low - t ∨ 1 / 8 ≤ t - high → ¬-(1 / 8) < tr.value) ∧
      (0 < tr.sensitivity ↔ 2 * t < low + high) := by
  obtain ⟨X, hX, hok⟩ := exists_solveScale_stripSystem low high par hsolver hcurv ht work
  refine ⟨_, hok, fun hlow hhigh => ?_, fun hmiss => not_lt.2 ?_,
    sensitivity_stripSystem_pos_iff hX⟩
  · refine Surrogate.lt_value_of_violation_neg ⟨stripSystem low high, t⟩ fun i => ?_
    rw [violation_stripSystem hX]
    split
    · linarith
    · linarith
  · rcases hmiss with hmiss | hmiss
    · exact Surrogate.value_le_of_le_violation ⟨stripSystem low high, t⟩
        (hmiss.trans_eq (violation_stripSystem hX (1 : Fin 2)).symm)
    · exact Surrogate.value_le_of_le_violation ⟨stripSystem low high, t⟩
        (hmiss.trans_eq (violation_stripSystem hX (0 : Fin 2)).symm)

/-- A scale that misses a strip by the accuracy is rejected, towards its middle. -/
theorem exists_passes_reject_stripSystem {low high : ℝ} {par : SearchSettings ℝ}
    (hsolver : par.solver = Settings.default) (hcurv : par.curvature = none)
    {s₀ s : Stage (Array ℝ) ℝ}
    (hs : Passes (solveScale (stripSystem low high) par) (1 / 8) s₀ s) (hpos : 0 < s.bracket.scale)
    (hmiss : 1 / 8 ≤ low - s.bracket.scale ∨ 1 / 8 ≤ s.bracket.scale - high) :
    ∃ s', Passes (solveScale (stripSystem low high) par) (1 / 8) s₀ s' ∧
      s'.rejected.map Rejection.scale = s.bracket.scale :: s.rejected.map Rejection.scale ∧
      s'.bracket = s.bracket.reject (low + high - 2 * s.bracket.scale) := by
  obtain ⟨tr, hok, -, hreject, hsens⟩ :=
    exists_trial_stripSystem low high par hsolver hcurv s.state hpos
  exact ⟨_, hs.step hok (hreject hmiss), rfl, s.bracket.reject_congr (hsens.trans sub_pos.symm)⟩

/-- The search between `9/8` and `11/8` rejects the scales one, two and `3/2`, which leave it with
the bracket from one to `3/2`, and accepts the middle of them. -/
theorem stripSystem_search_narrows :
    ∃ s : Stage (Array ℝ) ℝ,
      Passes (solveScale (stripSystem (9 / 8) (11 / 8)) .default) (1 / 8)
        (Stage.start 1 #[] #[.searchStarted, .searchSettings .default]) s ∧
      s.rejected.map Rejection.scale = [3 / 2, 2, 1] ∧ s.bracket = ⟨1, some (3 / 2), 5 / 4⟩ ∧
      s.bracket.EndsAt s.rejected ∧ s.tried.Nodup ∧
      (∀ sensitivity, s.bracket.Narrows (s.bracket.reject sensitivity)) ∧
      ∃ sol, (solve ⟨stripSystem (9 / 8) (11 / 8), #[]⟩ .default).outcome = .ok sol ∧
        sol.scale = 5 / 4 ∧ sol.solves = 4 := by
  obtain ⟨hstages, hends⟩ := search_narrows
    (solveScale (stripSystem (9 / 8) (11 / 8)) .default) (1 / 8) one_pos #[]
    #[.searchStarted, .searchSettings .default]
  have hb₀ : Bracket.start (1 : ℝ) = ⟨0, none, 1⟩ := rfl
  obtain ⟨s₁, h₁, hr₁, hb₁⟩ := exists_passes_reject_stripSystem rfl rfl
    (.start : Passes (solveScale (stripSystem (9 / 8) (11 / 8)) .default) (1 / 8)
      (Stage.start 1 #[] #[.searchStarted, .searchSettings .default]) _)
    one_pos (Or.inl (by norm_num [Stage.start, hb₀]))
  norm_num [Stage.start, hb₀, Bracket.reject, two_eq] at hb₁
  obtain ⟨s₂, h₂, hr₂, hb₂⟩ := exists_passes_reject_stripSystem rfl rfl h₁
    (by norm_num [hb₁]) (Or.inr (by norm_num [hb₁]))
  norm_num [hb₁, Bracket.reject, two_eq] at hb₂
  obtain ⟨s, h, hr₃, hb⟩ := exists_passes_reject_stripSystem rfl rfl h₂
    (by norm_num [hb₂]) (Or.inr (by norm_num [hb₂]))
  norm_num [hb₂, Bracket.reject, two_eq] at hb
  have hr : s.rejected.map Rejection.scale = [3 / 2, 2, 1] := by
    rw [hr₃, hr₂, hr₁, hb₂, hb₁]
    rfl
  obtain ⟨-, hat, hnodup, hnarrows⟩ := hstages s h
  have hlength : s.rejected.length = 3 := by
    rw [← List.length_map, hr]
    rfl
  have hscale : s.bracket.scale = 5 / 4 := by rw [hb]
  obtain ⟨tr, hok, haccept, -⟩ := exists_trial_stripSystem (9 / 8) (11 / 8) .default rfl rfl s.state
    (t := s.bracket.scale) (by norm_num [hscale])
  have htrial : (s.trial (solveScale (stripSystem (9 / 8) (11 / 8)) .default)).outcome = .ok tr :=
    hok
  have hsearch := (hends 50).2 s h (by omega)
  rw [Stage.search_of_accept (by omega) htrial
    (haccept (by norm_num [hscale]) (by norm_num [hscale]))] at hsearch
  refine ⟨s, h, hr, hb, hat, hnodup, fun sensitivity => (hnarrows sensitivity).1, ?_⟩
  refine ⟨_, congrArg Step.outcome hsearch, hscale, ?_⟩
  rw [hlength]

end Feasibility

end Spectrahedron
