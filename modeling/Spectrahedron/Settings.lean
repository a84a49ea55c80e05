import Spectrahedron.Scalar

/-!
# Settings

The parameters of a solve and of the search for a trace scale, with their defaults.
-/

namespace Spectrahedron

/-- The parameters of a solve over the spectrahedron. -/
structure Settings (α : Type) where
  /-- Values up to this one are taken for zero where a division would follow. -/
  epsZero : α
  /-- The tolerance of a top eigenpair, where no curvature constant gives one. -/
  epsEig : α
  /-- The tolerance of the asymmetry of a gradient, relative to its norm. -/
  epsSym : α
  /-- The greatest number of sweeps, and of restarts, of an extraction. -/
  maxIterEig : Nat
  /-- The greatest dimension of a Krylov basis. -/
  krylovDim : Nat
  /-- The dimension from which on the Lanczos extractor is used. -/
  lanczosMinDim : Nat
  /-- The seed of the random starting point and of the random starting vectors. -/
  seed : UInt64
  /-- The number of iterations between two reports of progress; zero for no reports. -/
  logPeriod : Nat
  deriving Repr

/-- The parameters of the search for a trace scale. -/
structure SearchSettings (α : Type) where
  /-- The greatest number of solves. -/
  maxIter : Nat
  /-- The first trace scale. -/
  traceInit : α
  /-- The curvature constant of the surrogate, where one is known. -/
  curvature : Option α
  /-- The parameters of each solve. -/
  solver : Settings α
  deriving Repr

variable {α : Type} [Scalar α]

/-- The parameters of a solve for which nothing else is asked. -/
def Settings.default : Settings α where
  epsZero := Scalar.tenToMinus 12
  epsEig := Scalar.tenToMinus 9
  epsSym := Scalar.tenToMinus 8
  maxIterEig := 300
  krylovDim := 20
  lanczosMinDim := 3
  seed := 0
  logPeriod := 100

/-- The parameters of a search for which nothing else is asked. -/
def SearchSettings.default : SearchSettings α where
  maxIter := 50
  traceInit := 1
  curvature := none
  solver := Settings.default

end Spectrahedron
