/-!
# Failures

A call ends early for one of two reasons. A `SolveError` is an answer: the data or the parameters
do not admit a solution, or an iteration ran out of its allowance. A `Fault` is a broken promise
of the caller: lengths that do not fit together, or an index outside of its range. `Stop` is
either of them.
-/

namespace Spectrahedron

/-- The reasons for which a solve ends without a solution. -/
inductive SolveError where
  /-- The extraction of a top eigenpair ran out of sweeps or restarts. -/
  | eigenConvergence
  /-- The constraint matrices, the bounds and the dimension do not fit together. -/
  | dimensionMismatch
  /-- The search for a trace scale ran out of solves, or out of the range of the scalars. -/
  | searchConvergence
  /-- A gradient is farther from its transpose than the tolerance admits. -/
  | asymmetricGradient
  /-- A value that must be finite is not. -/
  | nonFiniteValue
  /-- A parameter or an argument is outside of its domain. -/
  | invalidParam
  /-- The work slice is shorter than required. -/
  | workShortage
  deriving DecidableEq, Repr

namespace SolveError

/-- The name by which an error is reported. -/
def name : SolveError → String
  | eigenConvergence => "EigenConvergence"
  | dimensionMismatch => "DimensionMismatch"
  | searchConvergence => "BinarySearchDidNotConverge"
  | asymmetricGradient => "AsymmetricGradient"
  | nonFiniteValue => "NonFiniteValue"
  | invalidParam => "InvalidParam"
  | workShortage => "WorkShortage"

/-- What went wrong, in words. -/
def explanation : SolveError → String
  | eigenConvergence => "top eigenpair extraction did not converge"
  | dimensionMismatch => "matrix shapes disagree with dimension"
  | searchConvergence => "trace scale search exceeded max iterations"
  | asymmetricGradient => "gradient is not symmetric"
  | nonFiniteValue => "found NaN or infinity"
  | invalidParam => "invalid parameter or argument"
  | workShortage => "shortage of work slice length"

/-- The message of an error is its name, a colon and the explanation. -/
def message (e : SolveError) : String := e.name ++ ": " ++ e.explanation

/-- Every error, in the order of declaration. -/
def all : List SolveError :=
  [eigenConvergence, dimensionMismatch, searchConvergence, asymmetricGradient, nonFiniteValue,
    invalidParam, workShortage]

theorem mem_all (e : SolveError) : e ∈ all := by
  cases e <;> decide

end SolveError

/-- The promises of a caller that can be broken. -/
inductive Fault where
  /-- Two lengths, or a length and a dimension, do not fit together. -/
  | lengthMismatch
  /-- An index, or an element taken for granted, lies outside of its range. -/
  | outOfRange
  deriving DecidableEq, Repr

/-- Why a call ended early. -/
inductive Stop where
  | error (e : SolveError)
  | fault (f : Fault)
  deriving DecidableEq, Repr

end Spectrahedron
