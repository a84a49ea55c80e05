import Spectrahedron.Scalar
import Spectrahedron.Settings
import Spectrahedron.Failure

/-!
# Events

What an algorithm reports while it runs, as data. A computation collects its events in order and
never looks at them; which of them a listener sees, and in which words, is decided afterwards. A
value that is computed only for the report may be missing from it, which is a fault for those who
hear the event and nothing to the others.
-/

namespace Spectrahedron

/-- The severity of an event, from the most severe to the least. -/
inductive Level where
  | error | warn | info | debug | trace
  deriving DecidableEq, Repr

/-- The place of a level in the order of severity, the most severe first. -/
def Level.rank : Level → Nat
  | error => 0
  | warn => 1
  | info => 2
  | debug => 3
  | trace => 4

/-- What there is to report. -/
inductive Event (α : Type) where
  /-- The eigenvalue decomposition did not finish within a number of sweeps. -/
  | sweepsExhausted (sweeps : Nat)
  /-- An extractor was given fewer work entries than it requires. -/
  | extractorWorkShortage (given required : Nat)
  /-- A Krylov basis of a dimension gave a Ritz value and a residual estimate. An empty basis gives
  no Ritz value. -/
  | restart (number basis : Nat) (ritz : Except Fault α) (residual : α)
  /-- The extraction did not finish within a number of restarts. -/
  | restartsExhausted (restarts : Nat)
  /-- The dimension or the number of iterations is zero. -/
  | emptySolve (dim iterations : Nat)
  /-- The curvature constant is not positive. -/
  | badCurvature (curvature : α)
  /-- A solver was given fewer work entries than it requires. -/
  | solverWorkShortage (given required : Nat)
  /-- The settings of a solve. -/
  | settings (settings : Settings α)
  /-- A solve begins with its starting point. -/
  | initializing
  /-- The extractor in use. -/
  | extractorChosen (name : String)
  /-- The iterations begin. -/
  | iterating
  /-- No progress is reported, because the period is zero. -/
  | noPeriod
  /-- The gradient has an entry that is not finite. -/
  | nonFiniteGradient
  /-- The gradient is too far from its transpose. -/
  | asymmetricGradient (asymmetry tolerance norm : α)
  /-- An iteration, with the value of the objective after it. -/
  | progress (iteration : Nat) (value : Except Fault α) (eigenvalue stepSize : α)
  /-- An iteration between two reports of progress. -/
  | step (iteration : Nat) (eigenvalue stepSize tolerance : α)
  /-- The solution of a solve. -/
  | solution (entries : Array α)
  /-- A solve ended with a solution. -/
  | solved
  /-- The dimension or the number of constraints is zero. -/
  | emptySystem (dim count : Nat)
  /-- The accuracy is not positive and finite. -/
  | badAccuracy
  /-- There are not as many bounds as matrices. -/
  | countMismatch (matrices bounds : Nat)
  /-- A constraint matrix does not have the dimension of the system. -/
  | sizeMismatch (position size dim : Nat)
  /-- The trace scale is not positive and finite. -/
  | badScale (scale : α)
  /-- The surrogate is not finite at the solution for a trace scale. -/
  | nonFiniteSurrogate (scale : α)
  /-- The search for a trace scale begins. -/
  | searchStarted
  /-- The settings of the search. -/
  | searchSettings (settings : SearchSettings α)
  /-- The solution for a trace scale. -/
  | trial (number : Nat) (scale value sensitivity : α)
  /-- The search ended with an accepted trace scale. -/
  | searchFinished (scale : α)
  /-- The search left the range of the scalars after a number of solves. -/
  | scaleOutOfRange (scale : α) (solves : Nat)
  /-- The search did not finish within a number of solves. -/
  | solvesExhausted (solves : Nat)
  /-- A parameter was taken from the environment, in its printed form. -/
  | environment (variableName text : String)

namespace Event

variable {α : Type}

/-- The severity under which an event is recorded. -/
def level : Event α → Level
  | extractorWorkShortage .. | emptySolve .. | badCurvature .. | solverWorkShortage ..
  | nonFiniteGradient | asymmetricGradient .. | emptySystem .. | badAccuracy
  | countMismatch .. | sizeMismatch .. | badScale .. | nonFiniteSurrogate .. => .error
  | sweepsExhausted .. | restartsExhausted .. | noPeriod | scaleOutOfRange ..
  | solvesExhausted .. => .warn
  | initializing | iterating | solved | searchStarted | searchFinished .. | environment .. => .info
  | settings .. | extractorChosen .. | progress .. | searchSettings .. | trial .. => .debug
  | restart .. | step .. | solution .. => .trace

/-- The number of the iteration that an event reports. -/
def iteration? : Event α → Option Nat
  | progress k .. | step k .. => some k
  | _ => none

/-- The verbosity from which on an event is recorded: its own severity, but for the remark on a
missing period, which only a listener to progress needs. -/
def threshold : Event α → Level
  | noPeriod => .debug
  | e => e.level

end Event

end Spectrahedron
