import Spectrahedron.Proofs.Checked.Run
import Spectrahedron.Proofs.Trials

/-!
# The checked search

A system of constraints as its caller hands it over: matrices with a dimension each, bounds, and no
promise that they fit together. The surrogate goes through the matrices and the bounds side by side,
and reads the entries of a matrix through a check.

**Theorem (`eq_of_build`, `search_eq`).** Data that make a system are those of the system. On them
no step of a solve at a trace scale or of a search breaks off, and both end as the typed ones do.
-/

namespace Spectrahedron

open Scalar

/-- The same trial with another form of its point. -/
def Trial.map {α χ ψ : Type} (f : χ → ψ) (t : Trial α χ) : Trial α ψ := { t with x := f t.x }

/-- The same solution with another form of its point. -/
def Solution.map {α χ ψ : Type} (f : χ → ψ) (s : Solution α χ) : Solution α ψ :=
  { s with x := f s.x }

namespace Checked

variable {α β σ τ : Type} {m n : ℕ}

/-! ## Sequences side by side -/

theorem zip_ofFn (f : Fin n → σ) (x : Vector τ n) :
    (Array.ofFn f).zip x.toArray = Array.ofFn fun i => (f i, x.get i) := by
  refine Array.ext (by simp) fun i hi hi' => ?_
  simp [Vec.get_eq]

/-- What is computed for each element of a sequence. -/
theorem mapM_ofFn {f : σ → Except Fault τ} {g : Fin n → σ} {h : Fin n → τ}
    (hstep : ∀ i, f (g i) = .ok (h i)) : (Array.ofFn g).mapM f = .ok (Array.ofFn h) := by
  have hpure : f ∘ g = fun i => pure (h i) := funext hstep
  rw [Array.mapM_eq_mapM_toList, Array.toList_ofFn, List.ofFn_eq_map, List.mapM_map, hpure,
    List.mapM_pure, ← List.ofFn_eq_map]
  simp

/-- A fold over a sequence, every step of which succeeds. -/
theorem foldlM_ofFn {f : σ → β → Except Fault σ} {g : Fin n → β} {h : τ → Fin n → τ} (view : τ → σ)
    (hstep : ∀ t i, f (view t) (g i) = .ok (view (h t i))) (t : τ) :
    (Array.ofFn g).foldlM f (view t) = .ok (view (Fin.foldl n h t)) := by
  induction n with
  | zero => rfl
  | succ n ih =>
    rw [Array.ofFn_succ, Array.foldlM_push, ih fun t i => hstep t i.castSucc, ok_bind,
      Fin.foldl_succ_last]
    exact hstep _ (Fin.last n)

variable [Scalar α]

/-! ## Systems and surrogates -/

/-- The data of a system of constraints. -/
structure SystemSlices (α : Type) where
  dim : ℕ
  matrices : Array (SquareMatrix α)
  bounds : Array α
  eps : α

/-- The data of a surrogate. -/
structure SurrogateSlices (α : Type) where
  dim : ℕ
  matrices : Array (SquareMatrix α)
  bounds : Array α
  scale : α
  temperature : α

namespace SystemSlices

/-- The data of a typed system. -/
def of (system : ConstraintSystem α) : SystemSlices α where
  dim := system.dim
  matrices := Array.ofFn fun i => ⟨system.dim, system.matrices.get i⟩
  bounds := system.bounds.toArray
  eps := system.eps

def temperature (s : SystemSlices α) : α := larger (log (s.matrices.size : α) / s.eps) 1

def iterations (s : SystemSlices α) : ℕ :=
  max ((floorWord? (recip s.eps)).getD (wordBound - 1)) 1

def surrogate (s : SystemSlices α) (scale : α) : SurrogateSlices α :=
  ⟨s.dim, s.matrices, s.bounds, scale, s.temperature⟩

end SystemSlices

/-- The weights of exponents, and the logarithm of the sum of their exponentials. There must be an
exponent. -/
def weigh (z : Array α) : Except Fault (Array α × α) :=
  if h : 0 < z.size then .ok ((softMax z.toVector h).weights.toArray, (softMax z.toVector h).logSum)
  else .error .outOfRange

/-- A multiple of a matrix and of its transpose added to the matrix in a slice. -/
def addBoth (n : ℕ) (coef : α) (a : SquareMatrix α) (g : Array α) : Except Fault (Array α) :=
  loop 0 n (fun c => loop 0 n fun r g => do
    let e ← read g (c * n + r)
    let s := (← a.get? r c) + (← a.get? c r)
    write g (c * n + r) (e + coef * s)) g

namespace SurrogateSlices

/-- The exponents `M (t Tr (A_i X) - b_i)`. -/
def exponents (f : SurrogateSlices α) (x : Array α) : Except Fault (Array α) :=
  (f.matrices.zip f.bounds).mapM fun (a, b) => do
    return f.temperature * (f.scale * (← traceProduct f.dim a.toArray x) - b)

/-- The value at the matrix in a slice. -/
def value (f : SurrogateSlices α) (x : Array α) : Except Fault α := do
  let (_, logSum) ← weigh (← f.exponents x)
  return -logSum / f.temperature

/-- The sensitivity at the matrix in a slice. -/
def sensitivity (f : SurrogateSlices α) (x : Array α) : Except Fault α := do
  let (w, _) ← weigh (← f.exponents x)
  (f.matrices.zip w).foldlM (fun s (a, w) => do
    return s - w * (← traceProduct f.dim a.toArray x)) 0

/-- The gradient at the matrix in a slice, written over the slice `g`. -/
def gradient (f : SurrogateSlices α) (x g : Array α) : Except Fault (Array α) := do
  let (w, _) ← weigh (← f.exponents x)
  (f.matrices.zip w).foldlM (fun g (a, w) => addBoth f.dim (-f.scale * w / two) a g)
    (Slice.scale 0 g)

/-- The surrogate as an objective. -/
def objective (f : SurrogateSlices α) : SliceObjective α where
  dim := f.dim
  value := f.value
  gradient _ := f.gradient

end SurrogateSlices

/-! ## The search -/

/-- The trial at the point in the slice `x`, which a solve has ended with. -/
def trialAt (f : SurrogateSlices α) (x work : Array α) :
    Except Fault (Solved α (Trial α (Array α))) := do
  let value ← f.value x
  let sensitivity ← f.sensitivity x
  if isFinite value && isFinite sensitivity then
    require (x.size = f.dim * f.dim)
    return ⟨.ok ⟨Slice.scale f.scale x, value, sensitivity⟩, work⟩
  else return ⟨.error (.error .nonFiniteValue), work⟩

/-- The solution at one trace scale, in a work slice. -/
def solveScale (s : SystemSlices α) (par : SearchSettings α) (work : Array α) (scale : α) :
    Except Fault (Solved α (Trial α (Array α))) := do
  if Bracket.admissible scale then
    let f := s.surrogate scale
    let work := Workspace.resize work (FrankWolfe.workLength par.solver s.dim) 0
    let r ← solve par.solver f.objective s.iterations par.curvature work
    match r.outcome with
    | .error stop => return ⟨.error stop, r.work⟩
    | .ok x => trialAt f x r.work
  else return ⟨.error (.error .invalidParam), work⟩

/-- Tries the scales of a bracket, at most `left` of them, after `number` others. -/
def search (s : SystemSlices α) (par : SearchSettings α) : (left number : ℕ) → Bracket α → Array α →
    Except Fault (Solved α (Solution α (Array α)))
  | 0, _, _, work => return ⟨.error (.error .searchConvergence), work⟩
  | left + 1, number, b, work => do
    let r ← solveScale s par work b.scale
    match r.outcome with
    | .error stop => return ⟨.error stop, r.work⟩
    | .ok t =>
      if -s.eps < t.value then return ⟨.ok ⟨t.x, t.value, b.scale, number + 1⟩, r.work⟩
      else
        let b := b.reject t.sensitivity
        if Bracket.admissible b.scale then search s par left (number + 1) b r.work
        else return ⟨.error (.error .searchConvergence), r.work⟩

/-- A feasible matrix, sought from the first trace scale of the settings on. -/
def feasible (s : SystemSlices α) (par : SearchSettings α) (work : Array α) :
    Except Fault (Solved α (Solution α (Array α))) :=
  search s par par.maxIter 0 (Bracket.start par.traceInit) work

/-! ## Data that make a system -/

namespace SystemSlices

/-- Only the data of a system are accepted. -/
theorem eq_of_build {dim : ℕ} {matrices : Array (SquareMatrix α)} {bounds : Array α} {eps : α}
    {system : ConstraintSystem α}
    (h : ConstraintSystem.build dim matrices bounds eps = .ok system) :
    (⟨dim, matrices, bounds, eps⟩ : SystemSlices α) = of system := by
  obtain ⟨rfl, rfl, rfl, rfl⟩ := ConstraintSystem.data_of_build h
  rfl

theorem temperature_of (system : ConstraintSystem α) :
    (of system).temperature = system.temperature := by
  simp [temperature, of, ConstraintSystem.temperature]

end SystemSlices

/-! ## What is left in the slices -/

theorem weigh_eq (z : Vector α m) (h : 0 < m) :
    weigh z.toArray = .ok ((softMax z h).weights.toArray, (softMax z h).logSum) := by
  obtain ⟨_, rfl⟩ := z
  exact dif_pos h

/-- The matrix `G + a (A + Aᵀ)`. -/
def plusBoth (a : α) (A G : Mat α n n) : Mat α n n :=
  Mat.ofFn fun r c => G.get r c + a * (A.get r c + A.get c r)

theorem addBoth_eq (coef : α) (A G : Mat α n n) :
    addBoth n coef ⟨n, A⟩ G.toArray = .ok (plusBoth coef A G).toArray := by
  refine loop_set (f := fun r c e => e + coef * (A.get r c + A.get c r)) (fun B r c => ?_) G
  rw [read_index, SquareMatrix.get?_eq ⟨n, A⟩ r c, SquareMatrix.get?_eq ⟨n, A⟩ c r, ← write_index]
  rfl

section Surrogate

variable (system : ConstraintSystem α) (scale : α) (x : Mat α system.dim system.dim)

theorem exponents_eq : ((SystemSlices.of system).surrogate scale).exponents x.toArray
    = .ok (Surrogate.exponents ⟨system, scale⟩ x).toArray := by
  unfold SurrogateSlices.exponents Surrogate.exponents
  dsimp only [SystemSlices.surrogate, SystemSlices.of]
  rw [zip_ofFn, Vector.toArray_ofFn]
  refine mapM_ofFn fun i => ?_
  dsimp only [SquareMatrix.toArray]
  rw [traceProduct_eq]
  exact congrArg (fun M => Except.ok (M * _)) (SystemSlices.temperature_of system)

theorem weigh_exponents_eq :
    (((SystemSlices.of system).surrogate scale).exponents x.toArray >>= weigh)
      = .ok ((Surrogate.soft ⟨system, scale⟩ x).weights.toArray,
          (Surrogate.soft ⟨system, scale⟩ x).logSum) := by
  rw [exponents_eq]
  exact weigh_eq _ system.count_pos

theorem value_eq : ((SystemSlices.of system).surrogate scale).value x.toArray
    = .ok (Surrogate.value ⟨system, scale⟩ x) := by
  unfold SurrogateSlices.value
  rw [← bind_assoc, weigh_exponents_eq]
  exact congrArg (fun M => Except.ok (_ / M)) (SystemSlices.temperature_of system)

theorem sensitivity_eq : ((SystemSlices.of system).surrogate scale).sensitivity x.toArray
    = .ok (Surrogate.sensitivity ⟨system, scale⟩ x) := by
  unfold SurrogateSlices.sensitivity
  rw [← bind_assoc, weigh_exponents_eq, ok_bind]
  dsimp only [SystemSlices.surrogate, SystemSlices.of]
  rw [zip_ofFn]
  refine foldlM_ofFn id (fun s i => ?_) 0
  dsimp only [SquareMatrix.toArray]
  rw [traceProduct_eq]
  rfl

theorem gradient_eq (g : Mat α system.dim system.dim) :
    ((SystemSlices.of system).surrogate scale).gradient x.toArray g.toArray
      = .ok (Surrogate.gradient ⟨system, scale⟩ x g).toArray := by
  unfold SurrogateSlices.gradient
  rw [← bind_assoc, weigh_exponents_eq, ok_bind, Slice.scale_mat]
  dsimp only [SystemSlices.surrogate, SystemSlices.of]
  rw [zip_ofFn]
  refine (foldlM_ofFn (h := fun G i => plusBoth
    (-scale * (Surrogate.soft ⟨system, scale⟩ x).weights.get i / two) (system.matrices.get i) G)
    Mat.toArray (fun G i => ?_) (g.scale 0)).trans ?_
  · exact addBoth_eq _ _ G
  -- One fold over matrices is a fold for each entry.
  refine congrArg (fun G => Except.ok (Mat.toArray G)) (Mat.ext_get fun r c => ?_)
  rw [Surrogate.gradient, Mat.get_ofFn]
  refine foldl_related (fun _ (G : Mat α _ _) s => G.get r c = s) (Mat.get_scale _ _ _ _)
    fun i G s hG => ?_
  rw [plusBoth, Mat.get_ofFn, hG]

theorem implements_surrogate :
    ((SystemSlices.of system).surrogate scale).objective.Implements
      (Surrogate.objective ⟨system, scale⟩) where
  value x := ⟨_, value_eq system scale x⟩
  gradient _ x old := ⟨_, gradient_eq system scale x old, rfl⟩

end Surrogate

/-! ## Searches -/

/-- The slices of the result of a step. -/
def Solved.ofStep {ε χ : Type} (view : ε → χ) (r : Step Stop (Array α) ε α) : Solved α χ :=
  ⟨r.outcome.map view, r.state⟩

theorem trialAt_eq (system : ConstraintSystem α) (scale : α) (x : Mat α system.dim system.dim)
    (work : Array α) :
    trialAt ((SystemSlices.of system).surrogate scale) x.toArray work
      = .ok ⟨if isFinite (Surrogate.value ⟨system, scale⟩ x) &&
            isFinite (Surrogate.sensitivity ⟨system, scale⟩ x) then
          .ok ⟨(x.scale scale).toArray, Surrogate.value ⟨system, scale⟩ x,
            Surrogate.sensitivity ⟨system, scale⟩ x⟩
        else .error (.error .nonFiniteValue), work⟩ := by
  unfold trialAt
  rw [value_eq, ok_bind, sensitivity_eq, ok_bind]
  split
  · rw [Slice.scale_mat]
    exact congrArg (· >>= _) (require_of x.size_toArray)
  · rfl

variable (system : ConstraintSystem α) (par : SearchSettings α)

theorem solveScale_eq (work : Array α) (scale : α) :
    solveScale (.of system) par work scale
      = .ok (.ofStep (Trial.map Mat.toArray) (Feasibility.solveScale system par work scale)) := by
  unfold solveScale Feasibility.solveScale
  by_cases hscale : Bracket.admissible scale
  · rw [if_pos hscale, if_pos hscale]
    have hsolve := solve_eq (implements_surrogate system scale) par.solver par.curvature
      system.iterations (Workspace.resize work (FrankWolfe.workLength par.solver system.dim) 0)
    dsimp only
    generalize hr : FrankWolfe.solve par.solver (Surrogate.objective ⟨system, scale⟩)
      system.iterations par.curvature _ = r
    have hends := hsolve.trans (congrArg (fun r => Except.ok (Solved.of r)) hr)
    refine (congrArg (· >>= _) hends).trans ?_
    dsimp only [ok_bind, Solved.of]
    rcases r with ⟨stop | X, work, trail⟩
    · rfl
    · refine (trialAt_eq system scale X work).trans ?_
      dsimp only
      split <;> rfl
  · rw [if_neg hscale, if_neg hscale]
    rfl

theorem search_eq (left number : ℕ) (b : Bracket α) (work : Array α) (events : Array (Event α)) :
    search (.of system) par left number b work
      = .ok (.ofStep (Solution.map Mat.toArray)
          (Spectrahedron.search (Feasibility.solveScale system par) system.eps par.maxIter left
            number b work events)) := by
  induction left generalizing number b work events with
  | zero => rfl
  | succ left ih =>
    unfold search Spectrahedron.search
    rw [solveScale_eq, ok_bind]
    dsimp only [Solved.ofStep]
    generalize Feasibility.solveScale system par work b.scale = r
    rcases r with ⟨stop | t, work, trail⟩
    · rfl
    · show (if -system.eps < t.value then _ else _ : Except Fault _) = _
      dsimp only
      split
      · rfl
      · by_cases hscale : Bracket.admissible (b.reject t.sensitivity).scale
        · rw [if_pos hscale]
          refine (if_pos hscale).trans (ih _ _ _ _)
        · rw [if_neg hscale]
          exact if_neg hscale

end Checked

end Spectrahedron
