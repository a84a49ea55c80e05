import Spectrahedron.FrankWolfe
import Spectrahedron.Proofs.Checked.Extraction

/-!
# The checked solver

The solver on the slice of its caller, for an objective that reads and writes slices. The gradient
is made symmetric in place, pair after pair across the diagonal; a report of progress takes a
remainder by its period and asks for the value of the objective.

**Theorem (`solve_eq`).** If the methods of the objective do not fail on slices of its dimension,
then the solver does not break off, whatever its arguments, and ends as the typed run does.
-/

namespace Spectrahedron

open Scalar

variable {α : Type} [Scalar α] {n : ℕ}

/-! ## The symmetric part in place -/

namespace FrankWolfe

/-- Entry `(r, c)` and the entry across the diagonal replaced by their mean. -/
def meanAcross (c : Fin n) (G : Mat α n n) (r : Fin n) : Mat α n n :=
  (G.set r c ((G.get r c + G.get c r) / two)).set c r ((G.get r c + G.get c r) / two)

theorem get_foldl_meanAcross (G : Mat α n n) (c a b : Fin n) :
    (Fin.foldl n (fun G r => if r.val < c.val then meanAcross c G r else G) G).get a b =
      if b = c ∧ a < c then (G.get a c + G.get c a) / two
      else if a = c ∧ b < c then (G.get b c + G.get c b) / two else G.get a b := by
  -- After `k` steps the first `k` entries of column `c` and of row `c` are means.
  have hscan : ∀ a b, (Fin.foldl n (fun G r => if r.val < c.val then meanAcross c G r else G)
      G).get a b = if b = c ∧ a < c ∧ a.val < n then (G.get a c + G.get c a) / two
        else if a = c ∧ b < c ∧ b.val < n then (G.get b c + G.get c b) / two else G.get a b := by
    refine foldl_invariant (fun k (Y : Mat α n n) => ∀ a b, Y.get a b =
      if b = c ∧ a < c ∧ a.val < k then (G.get a c + G.get c a) / two
      else if a = c ∧ b < c ∧ b.val < k then (G.get b c + G.get c b) / two else G.get a b)
      (fun a b => by simp) fun r Y hY a b => ?_
    split
    · simp only [meanAcross, Mat.get_set, hY]
      grind
    · rw [hY]
      grind
  simpa using hscan a b

theorem foldl_meanAcross (G : Mat α n n) :
    Fin.foldl n (fun G c =>
        Fin.foldl n (fun G r => if r.val < c.val then meanAcross c G r else G) G) G
      = symmetricPart G := by
  -- After `k` columns the entries of the leading block of size `k` are means.
  have hscan : ∀ a b, (Fin.foldl n (fun G c => Fin.foldl n (fun G r =>
      if r.val < c.val then meanAcross c G r else G) G) G).get a b =
        if a < b ∧ b.val < n then (G.get a b + G.get b a) / two
        else if b < a ∧ a.val < n then (G.get b a + G.get a b) / two else G.get a b := by
    refine foldl_invariant (fun k (Y : Mat α n n) => ∀ a b, Y.get a b =
      if a < b ∧ b.val < k then (G.get a b + G.get b a) / two
      else if b < a ∧ a.val < k then (G.get b a + G.get a b) / two else G.get a b)
      (fun a b => by simp) fun c Y hY a b => ?_
    rw [get_foldl_meanAcross]
    simp only [hY]
    grind
  refine Mat.ext_get fun a b => ?_
  rw [hscan, symmetricPart, Mat.get_ofFn]
  simp

end FrankWolfe

/-! ## Objectives on slices -/

/-- An objective that reads and writes slices. -/
structure SliceObjective (α : Type) where
  dim : ℕ
  /-- The value at the matrix in a slice. -/
  value : Array α → Except Fault α
  /-- The gradient at the matrix in the slice `x`, written over the slice `g`, when the gradient has
  been asked for `calls` times before. -/
  gradient : (calls : ℕ) → (x g : Array α) → Except Fault (Array α)

namespace SliceObjective

/-- On slices as long as its matrices no method fails, and the gradient keeps its length. -/
structure Total (obj : SliceObjective α) : Prop where
  value : ∀ x, x.size = obj.dim * obj.dim → ∃ a, obj.value x = .ok a
  gradient : ∀ calls x g, x.size = obj.dim * obj.dim → g.size = obj.dim * obj.dim →
    ∃ g', obj.gradient calls x g = .ok g' ∧ g'.size = obj.dim * obj.dim

/-- The objective as the solver sees it. -/
def toObjective (obj : SliceObjective α) : Objective α obj.dim where
  value := obj.value
  gradient calls x old := do Mat.ofArray? (← obj.gradient calls x.toArray old.toArray)

/-- On slices that hold matrices no method fails, and the gradient is that of a typed objective. -/
structure Implements (obj : SliceObjective α) (typed : Objective α obj.dim) : Prop where
  value : ∀ x : Mat α obj.dim obj.dim, ∃ a, obj.value x.toArray = .ok a
  gradient : ∀ calls x old, ∃ g, obj.gradient calls x.toArray old.toArray = .ok g.toArray ∧
    typed.gradient calls x old = .ok g

omit [Scalar α] in
theorem Total.implements {obj : SliceObjective α} (h : obj.Total) :
    obj.Implements obj.toObjective where
  value x := h.value x.toArray x.size_toArray
  gradient calls x old := by
    obtain ⟨g, hg, hsize⟩ := h.gradient calls x.toArray old.toArray x.size_toArray old.size_toArray
    refine ⟨Mat.ofArray g hsize, hg, ?_⟩
    unfold toObjective
    dsimp only
    rw [hg]
    exact dif_pos hsize

end SliceObjective

namespace Checked

/-! ## The starting point -/

/-- A slice whose entries are images of the next random numbers. -/
def fill (f : α → α) (v : Array α) (random : Xoshiro) : Array α × Xoshiro :=
  ((random.fill f v.toVector).1.toArray, (random.fill f v.toVector).2)

theorem fill_eq (f : α → α) (v : Vector α n) (random : Xoshiro) :
    fill f v.toArray random = ((random.fill f v).1.toArray, (random.fill f v).2) := by
  obtain ⟨_, rfl⟩ := v
  rfl

/-- The first matrix, the vector it is made from, and the random numbers behind it. -/
def initial (epsZero : α) (x v : Array α) (random : Xoshiro) :
    Except Fault (Array α × Array α × Xoshiro) := do
  let n := v.size
  let (v, random) := fill id v random
  let sq ← Slice.inner v v
  let (v, sq) := if sq ≤ epsZero then (v.map fun _ => 1, (n : α)) else (v, sq)
  let x ← addRankOne n (recip sq) v (Slice.scale 0 x)
  return (x, v, random)

/-! ## The gradient -/

/-- The largest difference between an entry and the entry across the diagonal. -/
def asymmetry (n : ℕ) (g : Array α) : Except Fault α :=
  loop 0 n (fun c => loop 0 c fun r s => do
    let a ← read g (c * n + r)
    let b ← read g (r * n + c)
    return larger s (abs (a - b))) 0

/-- A matrix made symmetric in its slice. -/
def symmetricPart (n : ℕ) (g : Array α) : Except Fault (Array α) :=
  loop 0 n (fun c => loop 0 c fun r g => do
    let a ← read g (c * n + r)
    let b ← read g (r * n + c)
    let g ← write g (c * n + r) ((a + b) / two)
    write g (r * n + c) ((a + b) / two)) g

/-- The symmetric part of a gradient, or the reason why it is refused. -/
def symmetrize (epsZero epsSym : α) (n : ℕ) (g : Array α) :
    Except Fault (Except SolveError (Array α)) := do
  if g.all isFinite then
    let asym ← asymmetry n g
    if epsSym * larger (Slice.norm g) epsZero < asym then return .error .asymmetricGradient
    else return .ok (← symmetricPart n g)
  else return .error .nonFiniteValue

theorem asymmetry_eq (g : Mat α n n) : asymmetry n g.toArray = .ok (FrankWolfe.asymmetry g) :=
  loop_finRange id (fun s c => loop_finRange_lt id c.isLt.le (fun s r _ => by
    rw [read_index, read_index]
    rfl) s) 0

theorem symmetricPart_eq (g : Mat α n n) :
    symmetricPart n g.toArray = .ok (FrankWolfe.symmetricPart g).toArray := by
  rw [← FrankWolfe.foldl_meanAcross]
  refine loop_finRange Mat.toArray (fun G c => ?_) g
  refine loop_finRange_lt Mat.toArray c.isLt.le (fun G r _ => ?_) G
  rw [read_index, read_index, ok_bind, ok_bind, write_index, ok_bind, write_index]
  rfl

theorem symmetrize_eq (epsZero epsSym : α) (g : Mat α n n) :
    symmetrize epsZero epsSym n g.toArray = .ok (match FrankWolfe.symmetrize epsZero epsSym g with
      | .error (e, _) => .error e
      | .ok G => .ok G.toArray) := by
  have hall : g.toArray.all isFinite = g.data.all isFinite := rfl
  have hnorm : Slice.norm g.toArray = g.norm := Slice.norm_toArray g.data
  unfold symmetrize FrankWolfe.symmetrize
  rw [hall, asymmetry_eq, symmetricPart_eq, hnorm]
  split
  · dsimp only
    rw [ok_bind, ok_bind]
    split <;> rfl
  · rfl

/-! ## Iterations -/

/-- The slices of a state. -/
structure StateSlices (α : Type) where
  point : Array α
  gradient : Array α
  direction : Array α
  eigWork : Array α
  random : Xoshiro

namespace StateSlices

/-- The slices one after the other. -/
def toArray (st : StateSlices α) : Array α :=
  st.point ++ st.gradient ++ st.direction ++ st.eigWork

/-- The slices of a typed state. -/
def of (st : FrankWolfe.State α n) : StateSlices α where
  point := st.regions.point.toArray
  gradient := st.regions.gradient.toArray
  direction := st.regions.direction.toArray
  eigWork := st.regions.eigWork
  random := st.random

end StateSlices

/-- Whether iteration `k` of `total` is to be reported with the value of the objective. -/
def reports (period total k : ℕ) : Except Fault Bool :=
  if 0 < period then do return decide ((← remainder k period) = 0 ∨ k + 1 = total)
  else return false

/-- Iteration `k` of `total`: why it stops the run, if it does, and the state after it. -/
def advance (s : Settings α) (obj : SliceObjective α) (curvature : Option α) (e : Extractor α)
    (total k : ℕ) (st : StateSlices α) : Except Fault (Option Stop × StateSlices α) := do
  let n := obj.dim
  let report ← reports s.logPeriod total k
  let g ← obj.gradient k st.point st.gradient
  match ← symmetrize s.epsZero s.epsSym n g with
  | .error reason => return (some (.error reason), { st with gradient := g })
  | .ok g =>
    let (v, random) := fill (· - 1 / two) st.direction st.random
    let r ← topEig e n g (FrankWolfe.eigTolerance s curvature k) v st.eigWork
    let st := { st with
      gradient := g
      direction := r.vec
      eigWork := r.work
      random := random }
    match r.outcome with
    | .error stop => return (some stop, st)
    | .ok _ =>
      let a := FrankWolfe.stepSize k
      let x ← addRankOne n a r.vec (Slice.scale (1 - a) st.point)
      if report then
        let _ ← obj.value x
      return (none, { st with point := x })

/-- The iterations from number `k` on, `left` of them, until one fails. -/
def iterate (s : Settings α) (obj : SliceObjective α) (curvature : Option α) (e : Extractor α)
    (total : ℕ) : (left k : ℕ) → StateSlices α → Except Fault (Option Stop × StateSlices α)
  | 0, _, st => .ok (none, st)
  | left + 1, k, st => do
    let (stop, st) ← advance s obj curvature e total k st
    match stop with
    | some stop => return (some stop, st)
    | none => iterate s obj curvature e total left (k + 1) st

/-! ## The run -/

/-- The result of a solve: the solution or the reason of the failure, and what is left in the work
slice. -/
structure Solved (α χ : Type) where
  outcome : Except Stop χ
  work : Array α

/-- The run of a solve whose arguments have been checked. -/
def run (s : Settings α) (obj : SliceObjective α) (iterations : ℕ) (curvature : Option α)
    (work : Array α) : Except Fault (Solved α (Array α)) := do
  let n := obj.dim
  let (x, rest) ← split work (n * n)
  let (g, rest) ← split rest (n * n)
  let (v, eigWork) ← split rest n
  let (x, v, random) ← initial s.epsZero x v (.ofSeed s.seed)
  let e := Extractor.select n s.lanczosMinDim s.krylovDim s.epsZero s.maxIterEig
  let (stop, st) ← iterate s obj curvature e iterations iterations 0 ⟨x, g, v, eigWork, random⟩
  match stop with
  | some stop => return ⟨.error stop, st.toArray⟩
  | none => return ⟨.ok st.point, st.toArray⟩

/-- Maximises an objective over the spectrahedron by a number of iterations. -/
def solve (s : Settings α) (obj : SliceObjective α) (iterations : ℕ) (curvature : Option α)
    (work : Array α) : Except Fault (Solved α (Array α)) := do
  let n := obj.dim
  if n = 0 ∨ iterations = 0 then return ⟨.error (.error .invalidParam), work⟩
  if curvature.any fun c => ¬0 < c then return ⟨.error (.error .invalidParam), work⟩
  if work.size < FrankWolfe.workLength s n then
    return ⟨.error (.error .workShortage), work⟩
  run s obj iterations curvature work

/-! ## What is left in the slices -/

theorem initial_eq (s : Settings α) (w : FrankWolfe.Regions α n) :
    initial s.epsZero w.point.toArray w.direction.toArray (.ofSeed s.seed)
      = .ok ((FrankWolfe.initialState s w).regions.point.toArray,
          (FrankWolfe.initialState s w).regions.direction.toArray,
          (FrankWolfe.initialState s w).random) := by
  unfold initial FrankWolfe.initialState FrankWolfe.startVector FrankWolfe.startPoint
  simp only [fill_eq, Slice.inner_toArray, Vector.size_toArray, Slice.scale_mat, ok_bind]
  rcases Xoshiro.fill id w.direction (.ofSeed s.seed) with ⟨v, random⟩
  dsimp only
  split
  · rw [← Vector.toArray_map, addRankOne_eq]
    rfl
  · rw [addRankOne_eq]
    rfl

section Implements

variable {obj : SliceObjective α} {typed : Objective α obj.dim} (hobj : obj.Implements typed)
  (s : Settings α) (curvature : Option α)

theorem reports_eq (period total k : ℕ) : ∃ report, reports period total k = .ok report := by
  unfold reports
  split
  · rename_i hpos
    rw [remainder_of_pos hpos]
    exact ⟨_, rfl⟩
  · exact ⟨_, rfl⟩

/-- Why an iteration stops a run. -/
def stopOf {β : Type} (outcome : Except Stop β) : Option Stop :=
  match outcome with
  | .error stop => some stop
  | .ok _ => none

include hobj

theorem advance_eq (hn : 0 < obj.dim) (total k : ℕ) (st : FrankWolfe.State α obj.dim) :
    advance s obj curvature (FrankWolfe.problem s typed curvature).extractor total k (.of st)
      = .ok (stopOf (FrankWolfe.advance (FrankWolfe.problem s typed curvature) k st).outcome,
          .of (FrankWolfe.advance (FrankWolfe.problem s typed curvature) k st).state) := by
  obtain ⟨report, hreport⟩ := reports_eq s.logPeriod total k
  obtain ⟨g, hg, htyped⟩ := hobj.gradient k st.regions.point st.regions.gradient
  unfold advance FrankWolfe.advance FrankWolfe.ascend
  dsimp only [StateSlices.of, FrankWolfe.problem]
  rw [hreport, ok_bind, hg, ok_bind, htyped, symmetrize_eq, ok_bind]
  dsimp only
  rcases FrankWolfe.symmetrize s.epsZero s.epsSym g with ⟨reason, event⟩ | G
  · rfl
  · dsimp only
    rw [fill_eq]
    dsimp only
    rw [topEig_eq _ hn, ok_bind]
    dsimp only [Extracted.of]
    generalize Extractor.topEig
      (.select obj.dim s.lanczosMinDim s.krylovDim s.epsZero s.maxIterEig) G _ _ _ = r
    rcases r with ⟨stop | value, v, work, events⟩
    · rfl
    · dsimp only
      rw [Slice.scale_mat, addRankOne_eq, ok_bind]
      obtain ⟨value, hvalue⟩ :=
        hobj.value (FrankWolfe.move (FrankWolfe.stepSize k) v st.regions.point)
      unfold FrankWolfe.move at hvalue ⊢
      split
      · rw [hvalue]
        rfl
      · rfl

theorem iterate_eq (hn : 0 < obj.dim) (total left k : ℕ) (st : FrankWolfe.State α obj.dim)
    (t : FrankWolfe.Trail α obj.dim) :
    iterate s obj curvature (FrankWolfe.problem s typed curvature).extractor total left k (.of st)
      = .ok (
        (FrankWolfe.iterate (FrankWolfe.problem s typed curvature) total left k st t).1,
        .of (FrankWolfe.iterate (FrankWolfe.problem s typed curvature) total left k st t).2.1) := by
  induction left generalizing k st t with
  | zero => rfl
  | succ left ih =>
    rw [iterate, advance_eq hobj s curvature hn, ok_bind]
    unfold FrankWolfe.iterate
    dsimp only
    cases (FrankWolfe.advance (FrankWolfe.problem s typed curvature) k st).outcome with
    | error stop => rfl
    | ok f => exact ih _ _ _

/-- The slices of the result of a run. -/
def Solved.of (r : FrankWolfe.Run α n) : Solved α (Array α) :=
  ⟨r.outcome.map Mat.toArray, r.work⟩

theorem run_eq (hn : 0 < obj.dim) (iterations : ℕ)
    {work : Array α} (hsize : FrankWolfe.Regions.size obj.dim ≤ work.size) :
    run s obj iterations curvature work = .ok (.of (FrankWolfe.run s typed iterations curvature
      (FrankWolfe.Regions.ofSlice obj.dim work hsize))) := by
  have hsize' : obj.dim * obj.dim + obj.dim * obj.dim + obj.dim ≤ work.size := hsize
  generalize hw : FrankWolfe.Regions.ofSlice obj.dim work hsize = w
  have hpoint : split work (obj.dim * obj.dim)
      = .ok (w.point.toArray, Workspace.rest work (obj.dim * obj.dim)) := by
    rw [← hw]
    exact split_start (by omega)
  have hgradient : split (Workspace.rest work (obj.dim * obj.dim)) (obj.dim * obj.dim)
      = .ok (w.gradient.toArray, Workspace.rest work (obj.dim * obj.dim + obj.dim * obj.dim)) := by
    rw [← hw]
    exact split_rest (by omega)
  have hdirection :
      split (Workspace.rest work (obj.dim * obj.dim + obj.dim * obj.dim)) obj.dim
        = .ok (w.direction.toArray, w.eigWork) := by
    rw [← hw]
    exact split_rest hsize'
  unfold run FrankWolfe.run
  dsimp only
  rw [hpoint, ok_bind, hgradient, ok_bind, hdirection, ok_bind, initial_eq s w, ok_bind]
  have hstart : (⟨(FrankWolfe.initialState s w).regions.point.toArray, w.gradient.toArray,
      (FrankWolfe.initialState s w).regions.direction.toArray, w.eigWork,
      (FrankWolfe.initialState s w).random⟩ : StateSlices α)
        = .of (FrankWolfe.initialState s w) := rfl
  dsimp only
  rw [hstart]
  have hiter := iterate_eq hobj s curvature hn iterations iterations 0 (FrankWolfe.initialState s w)
    ⟨{}, #[.settings s, .initializing,
      .extractorChosen (FrankWolfe.problem s typed curvature).extractor.name, .iterating]⟩
  refine (congrArg (· >>= _) hiter).trans ?_
  rcases FrankWolfe.iterate (FrankWolfe.problem s typed curvature) iterations iterations 0 _ _
    with ⟨_ | stop, st, t⟩
  · rfl
  · rfl

theorem solve_eq (iterations : ℕ) (work : Array α) :
    solve s obj iterations curvature work
      = .ok (.of (FrankWolfe.solve s typed iterations curvature work)) := by
  unfold solve FrankWolfe.solve
  dsimp only
  rw [← Option.isSome_filter]
  by_cases hargs : obj.dim = 0 ∨ iterations = 0
  · rw [if_pos hargs, if_pos hargs]
    rfl
  have hn : 0 < obj.dim := by omega
  rw [if_neg hargs, if_neg hargs]
  cases curvature.filter fun c => ¬0 < c with
  | some c => rfl
  | none =>
    dsimp only [Option.isSome_none]
    by_cases hfit : FrankWolfe.workLength s obj.dim ≤ work.size
    · rw [if_neg (Nat.not_lt.2 hfit), dif_pos hfit, if_neg Bool.false_ne_true]
      have hsize : FrankWolfe.Regions.size obj.dim ≤ work.size :=
        Nat.le_trans (Nat.le_add_right _ _) hfit
      exact run_eq hobj s curvature hn iterations hsize
    · rw [if_pos (Nat.lt_of_not_le hfit), dif_neg hfit]
      rfl

end Implements

end Checked

end Spectrahedron
