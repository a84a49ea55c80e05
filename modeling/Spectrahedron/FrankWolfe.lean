import Spectrahedron.Eigen.Extractor
import Spectrahedron.Objective
import Spectrahedron.Random

/-!
# Maximisation over the spectrahedron

The matrices that are symmetric and positive semidefinite with trace one form the spectrahedron. A
concave function is maximised over it by conditional gradients: iteration `k` takes the unit
eigenvector `v` of the largest eigenvalue of the gradient at `X` and goes from `X` to
`(1 - a) X + a v vᵀ` with the step size `a = min 1 (2 / (k + 1))`. Each iterate is a convex
combination of matrices `v vᵀ`, so it stays in the spectrahedron.

The solver keeps `X`, the gradient, the eigenvector and the work entries of the extractor in one
slice of the caller. A run also returns its course: the matrices at which it asked for the gradient,
the gradients, and the eigenvectors it went towards.
-/

namespace Spectrahedron.FrankWolfe

open Scalar

variable {α : Type} [Scalar α] {n : Nat}

/-! ## The regions of the work slice -/

/-- The iterate, the gradient, the eigenvector, and the entries of the extractor. -/
structure Regions (α : Type) (n : Nat) where
  point : Mat α n n
  gradient : Mat α n n
  direction : Vector α n
  eigWork : Array α

namespace Regions

/-- The number of entries in front of those of the extractor. -/
def size (n : Nat) : Nat := n * n + n * n + n

/-- The regions of a slice. -/
def ofSlice (n : Nat) (work : Array α) (h : size n ≤ work.size) : Regions α n :=
  have h' : n * n + n * n + n ≤ work.size := h
  { point := ⟨Workspace.window work 0 (n * n) (by omega)⟩
    gradient := ⟨Workspace.window work (n * n) (n * n) (by omega)⟩
    direction := Workspace.window work (n * n + n * n) n (by omega)
    eigWork := Workspace.rest work (size n) }

/-- The regions one after the other. -/
def toArray (w : Regions α n) : Array α :=
  w.point.toArray ++ w.gradient.toArray ++ w.direction.toArray ++ w.eigWork

end Regions

/-- The number of work entries that a solve requires. -/
def workLength (s : Settings α) (n : Nat) : Nat :=
  Regions.size n + Extractor.selectWorkLength n s.lanczosMinDim s.krylovDim

/-! ## The starting point -/

/-- A random vector and its square norm; a vector of ones when the norm is taken for zero. -/
@[specialize] def startVector (epsZero : α) (old : Vector α n) (random : Xoshiro) :
    (Vector α n × α) × Xoshiro :=
  let (v, random) := random.fill id old
  let sq := inner v v
  if sq ≤ epsZero then ((v.map fun _ => 1, (n : α)), random) else ((v, sq), random)

/-- The rank-one matrix of trace one in the direction of `v`, written over a matrix. -/
@[specialize] def startPoint (v : Vector α n) (sq : α) (old : Mat α n n) : Mat α n n :=
  (old.scale 0).addRankOne (recip sq) v

/-! ## The gradient -/

/-- The largest difference between an entry and the entry across the diagonal. -/
@[specialize] def asymmetry (g : Mat α n n) : α :=
  Fin.foldl n (fun s c => Fin.foldl n (fun s r =>
    if r < c then larger s (abs (g.get r c - g.get c r)) else s) s) 0

/-- The mean of a matrix and its transpose. The diagonal is left as it is. -/
@[specialize] def symmetricPart (g : Mat α n n) : Mat α n n :=
  Mat.ofFn fun r c =>
    if r < c then (g.get r c + g.get c r) / two
    else if c < r then (g.get c r + g.get r c) / two
    else g.get r c

/-- The symmetric part of a gradient that is finite and symmetric up to a tolerance. Any other
gradient is refused, with the event that says why. -/
@[specialize] def symmetrize (epsZero epsSym : α) (g : Mat α n n) :
    Except (SolveError × Event α) (Mat α n n) :=
  if g.data.all isFinite then
    let asym := asymmetry g
    let normG := g.norm
    if epsSym * larger normG epsZero < asym then
      .error (.asymmetricGradient, .asymmetricGradient asym epsSym normG)
    else .ok (symmetricPart g)
  else .error (.nonFiniteValue, .nonFiniteGradient)

/-! ## One iteration -/

/-- The tolerance of the eigenpair of iteration `k`: the curvature constant over `(k + 1)²` where
one is known, and at least the spacing of the numbers. -/
@[specialize] def eigTolerance (s : Settings α) (curvature : Option α) (k : Nat) : α :=
  let tol := match curvature with
    | some c => c / (((k + 1 : Nat) : α) * ((k + 1 : Nat) : α))
    | none => s.epsEig
  larger tol epsilon

/-- The step size of iteration `k`. -/
@[specialize] def stepSize (k : Nat) : α := smaller 1 (two / ((k + 1 : Nat) : α))

/-- The iterate after a step of size `a` towards `v vᵀ`. -/
@[specialize] def move (a : α) (v : Vector α n) (x : Mat α n n) : Mat α n n :=
  (x.scale (1 - a)).addRankOne a v

/-- A problem with all that stays the same through its iterations. -/
structure Problem (α : Type) (n : Nat) where
  settings : Settings α
  objective : Objective α n
  curvature : Option α
  extractor : Extractor α

/-- What changes from one iteration to the next. -/
structure State (α : Type) (n : Nat) where
  regions : Regions α n
  random : Xoshiro

/-- The figures of an iteration. -/
structure Figures (α : Type) where
  eigenvalue : α
  stepSize : α
  tolerance : α

/-- The result of an iteration. -/
structure Advance (α : Type) (n : Nat) where
  outcome : Except Stop (Figures α)
  state : State α n
  events : Array (Event α)

/-- The direction and the step of iteration `k`, for a gradient that is symmetric. -/
@[specialize] def ascend (p : Problem α n) (k : Nat) (st : State α n) : Advance α n :=
  let tol := eigTolerance p.settings p.curvature k
  let (start, random) := st.random.fill (· - 1 / two) st.regions.direction
  let e := p.extractor.topEig st.regions.gradient tol start st.regions.eigWork
  let w := { st.regions with direction := e.vec, eigWork := e.work }
  match e.outcome with
  | .error stop => ⟨.error stop, ⟨w, random⟩, e.events⟩
  | .ok value =>
    let a := stepSize k
    ⟨.ok ⟨value, a, tol⟩, ⟨{ w with point := move a e.vec w.point }, random⟩, e.events⟩

/-- Iteration `k`. -/
@[specialize] def advance (p : Problem α n) (k : Nat) (st : State α n) : Advance α n :=
  match p.objective.gradient k st.regions.point st.regions.gradient with
  | .error f => ⟨.error (.fault f), st, #[]⟩
  | .ok g =>
    match symmetrize p.settings.epsZero p.settings.epsSym g with
    | .error (e, event) =>
      ⟨.error (.error e), ⟨{ st.regions with gradient := g }, st.random⟩, #[event]⟩
    | .ok g' => ascend p k ⟨{ st.regions with gradient := g' }, st.random⟩

/-! ## The run -/

/-- The course of a run: the matrices at which the gradient was asked for, the gradients after they
were made symmetric, and the eigenvectors towards which the iterates went. -/
structure Course (α : Type) (n : Nat) where
  visited : Array (Mat α n n) := #[]
  gradients : Array (Mat α n n) := #[]
  directions : Array (Vector α n) := #[]

/-- What a run leaves behind: its course and the events. -/
structure Trail (α : Type) (n : Nat) extends Course α n where
  events : Array (Event α) := #[]

/-- The matrices at which the gradient had been asked for when an event was reported: those up to
the iteration that it reports, and all of them when it reports none. -/
def Trail.visitedBy (t : Trail α n) (e : Event α) : Array (Mat α n n) :=
  match e.iteration? with
  | some k => t.visited.extract 0 (k + 1)
  | none => t.visited

/-- The remark before the first iteration of a run that reports no progress. -/
def noPeriodEvent (logPeriod k : Nat) : Array (Event α) :=
  if logPeriod = 0 ∧ k = 0 then #[.noPeriod] else #[]

/-- The report of iteration `k` of `total`, which led to the matrix `x`. -/
@[specialize] def report (p : Problem α n) (total k : Nat) (f : Figures α) (x : Mat α n n) :
    Event α :=
  let period := p.settings.logPeriod
  if 0 < period ∧ (k % period = 0 ∨ k + 1 = total) then
    .progress k (p.objective.valueAt x) f.eigenvalue f.stepSize
  else .step k f.eigenvalue f.stepSize f.tolerance

/-- The iterations from number `k` on, `left` of them, until one fails. -/
@[specialize] def iterate (p : Problem α n) (total : Nat) :
    (left k : Nat) → State α n → Trail α n → Option Stop × State α n × Trail α n
  | 0, _, st, t => (none, st, t)
  | left + 1, k, st, t =>
    let t := { t with
      visited := t.visited.push st.regions.point
      events := t.events ++ noPeriodEvent p.settings.logPeriod k }
    let r := advance p k st
    match r.outcome with
    | .error stop => (some stop, r.state, { t with events := t.events ++ r.events })
    | .ok f =>
      iterate p total left (k + 1) r.state
        { t with
          gradients := t.gradients.push r.state.regions.gradient
          directions := t.directions.push r.state.regions.direction
          events := (t.events ++ r.events).push (report p total k f r.state.regions.point) }

/-- The result of a run: the solution or the reason of the failure, what is left in the work
slice, and the trail. -/
structure Run (α : Type) (n : Nat) where
  outcome : Except Stop (Mat α n n)
  work : Array α
  trail : Trail α n

/-- The state before the first iteration, whose iterate has rank one and a random direction. -/
@[specialize] def initialState (s : Settings α) (w : Regions α n) : State α n :=
  let ((v, sq), random) := startVector s.epsZero w.direction (.ofSeed s.seed)
  ⟨{ w with point := startPoint v sq w.point, direction := v }, random⟩

/-- The problem of a solve, with the extractor that its settings choose. -/
@[specialize] def problem (s : Settings α) (obj : Objective α n) (curvature : Option α) :
    Problem α n :=
  ⟨s, obj, curvature, Extractor.select n s.lanczosMinDim s.krylovDim s.epsZero s.maxIterEig⟩

/-- The run of a solve whose arguments have been checked. -/
@[specialize] def run (s : Settings α) (obj : Objective α n) (iterations : Nat)
    (curvature : Option α) (w : Regions α n) : Run α n :=
  let p := problem s obj curvature
  let events := #[.settings s, .initializing, .extractorChosen p.extractor.name, .iterating]
  match iterate p iterations iterations 0 (initialState s w) ⟨{}, events⟩ with
  | (some stop, st, t) => ⟨.error stop, st.regions.toArray, t⟩
  | (none, st, t) =>
    let x := st.regions.point
    ⟨.ok x, st.regions.toArray,
      { t with events := t.events ++ #[.solution x.toArray, .solved] }⟩

/-- A run that ends before it begins. -/
@[inline] def refuse (e : SolveError) (work : Array α) (event : Event α) : Run α n :=
  ⟨.error (.error e), work, ⟨{}, #[event]⟩⟩

/-- Maximises an objective over the spectrahedron by a number of iterations. A curvature constant
of the objective, if one is known, relaxes the tolerance of the eigenpairs of early iterations. -/
@[specialize] def solve (s : Settings α) (obj : Objective α n) (iterations : Nat)
    (curvature : Option α) (work : Array α) : Run α n :=
  if n = 0 ∨ iterations = 0 then
    refuse .invalidParam work (.emptySolve n iterations)
  else
    match curvature.filter fun c => ¬0 < c with
    | some c => refuse .invalidParam work (.badCurvature c)
    | none =>
      if h : workLength s n ≤ work.size then
        run s obj iterations curvature
          (Regions.ofSlice n work (Nat.le_trans (Nat.le_add_right _ _) h))
      else refuse .workShortage work (.solverWorkShortage work.size (workLength s n))

end Spectrahedron.FrankWolfe
