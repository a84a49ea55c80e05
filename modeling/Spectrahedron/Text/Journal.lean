import Spectrahedron.Decimal.Text
import Spectrahedron.Event

/-!
# Journals

The written form of events, and the records that a listener of a given verbosity receives. A
record is the level in capitals and the text of the event.

An event has no text when what it reports cannot be computed. Only a listener that hears the event
is concerned: its journal ends there, and the computation breaks off with a fault for it.
-/

namespace Spectrahedron

open Decimal

/-- A value that may be missing, for inspection. -/
def inspectOption : Option Float → String
  | none => "None"
  | some x => "Some(" ++ inspect x ++ ")"

/-- A list of values, for inspection. -/
def inspectArray (xs : Array Float) : String :=
  "[" ++ ", ".intercalate (xs.toList.map inspect) ++ "]"

/-- The settings of a solve, for inspection. -/
def Settings.inspect (s : Settings Float) : String :=
  "SolverParam \x7b eps_zero: " ++ Decimal.inspect s.epsZero
    ++ ", eps_eig: " ++ Decimal.inspect s.epsEig
    ++ ", eps_sym: " ++ Decimal.inspect s.epsSym
    ++ ", max_iter_eig: " ++ toString s.maxIterEig
    ++ ", lanczos_ncv: " ++ toString s.krylovDim
    ++ ", lanczos_min_dim: " ++ toString s.lanczosMinDim
    ++ ", seed: " ++ toString s.seed.toNat
    ++ ", log_period: " ++ toString s.logPeriod ++ " \x7d"

/-- The settings of a search, for inspection. -/
def SearchSettings.inspect (s : SearchSettings Float) : String :=
  "GeneralParam \x7b max_iter: " ++ toString s.maxIter
    ++ ", trace_init: " ++ Decimal.inspect s.traceInit
    ++ ", curvature: " ++ inspectOption s.curvature
    ++ ", solver: " ++ s.solver.inspect ++ " \x7d"

/-- The name of a level in capitals. -/
def Level.name : Level → String
  | error => "ERROR"
  | warn => "WARN"
  | info => "INFO"
  | debug => "DEBUG"
  | trace => "TRACE"

namespace Event

/-- The text of an event. A report of progress has no text when the objective has no value, and that
of a restart none when the basis is empty. -/
def text : Event Float → Except Fault String
  | sweepsExhausted sweeps =>
    .ok ("jacobi: not converged within " ++ toString sweeps ++ " sweeps")
  | extractorWorkShortage given required =>
    .ok ("work shortage: " ++ toString given ++ " given < " ++ toString required ++ " required")
  | restart number basis ritz residual => do
    let ritz ← ritz
    return "lanczos " ++ toString number ++ ": m " ++ toString basis
      ++ " theta " ++ scientific 3 ritz ++ " resid " ++ scientific 2 residual
  | restartsExhausted restarts =>
    .ok ("lanczos: not converged within " ++ toString restarts ++ " restarts")
  | emptySolve dim iterations =>
    .ok ("dim " ++ toString dim ++ " and n_iter " ++ toString iterations ++ " must be >= 1")
  | badCurvature curvature =>
    .ok ("curvature constant " ++ inspect curvature ++ " must be > 0")
  | solverWorkShortage given required =>
    .ok ("Work memory length " ++ toString given ++ " must be >= " ++ toString required)
  | settings s => .ok s.inspect
  | initializing => .ok "----- Initializing"
  | extractorChosen name => .ok ("top eigenpair by " ++ name)
  | iterating => .ok "----- Started"
  | noPeriod => .ok "log_period == 0: no periodic log"
  | nonFiniteGradient => .ok "gradient has a non-finite value"
  | asymmetricGradient asymmetry tolerance norm =>
    .ok ("gradient asymmetry " ++ scientific 2 asymmetry ++ " exceeds " ++ scientific 2 tolerance
      ++ " of its norm " ++ scientific 2 norm)
  | progress iteration value eigenvalue stepSize => do
    let value ← value
    return toString iteration ++ ": f " ++ scientific 3 value
      ++ " lambda " ++ scientific 3 eigenvalue ++ " alpha " ++ scientific 2 stepSize
  | step iteration eigenvalue stepSize tolerance =>
    .ok (toString iteration ++ ": lambda " ++ scientific 3 eigenvalue
      ++ " alpha " ++ scientific 2 stepSize ++ " tol " ++ scientific 2 tolerance)
  | solution entries => .ok ("x " ++ inspectArray entries)
  | solved => .ok "----- Finished"
  | emptySystem dim count =>
    .ok ("dim " ++ toString dim ++ " and the number of constraints " ++ toString count
      ++ " must be >= 1")
  | badAccuracy => .ok "eps must be positive and finite"
  | countMismatch matrices bounds =>
    .ok (toString matrices ++ " matrices for " ++ toString bounds ++ " scalars")
  | sizeMismatch position size dim =>
    .ok ("A_" ++ toString position ++ " is (" ++ toString size ++ ", " ++ toString size ++ "), not ("
      ++ toString dim ++ ", " ++ toString dim ++ ")")
  | badScale scale => .ok ("trace scale " ++ inspect scale ++ " must be positive")
  | nonFiniteSurrogate scale =>
    .ok ("surrogate is not finite at x_trace " ++ scientific 3 scale)
  | searchStarted => .ok "----- Trace search started"
  | searchSettings s => .ok s.inspect
  | trial number scale value sensitivity =>
    .ok (toString number ++ ": x_trace " ++ scientific 3 scale ++ " f " ++ scientific 3 value
      ++ " sens " ++ scientific 3 sensitivity)
  | searchFinished scale => .ok ("----- Trace search finished: x_trace " ++ scientific 3 scale)
  | scaleOutOfRange scale solves =>
    .ok ("trace search: scale " ++ scientific 3 scale ++ " out of range after " ++ toString solves
      ++ " solves")
  | solvesExhausted solves =>
    .ok ("trace search: not converged within " ++ toString solves ++ " solves")
  | environment variableName text => .ok (variableName ++ ": " ++ text)

/-- Whether a listener of a verbosity hears an event. -/
def heard {α : Type} (verbosity : Level) (e : Event α) : Bool :=
  e.threshold.rank ≤ verbosity.rank

/-- The record of an event. -/
def record (e : Event Float) : Except Fault String := do
  return e.level.name ++ " " ++ (← e.text)

end Event

/-- What a listener receives of a computation: the records, and the first event it hears that has no
text. There are no records from there on. -/
structure Journal where
  records : Array String := #[]
  unwritten : Option (Event Float) := none

namespace Journal

/-- The records of events one after the other, up to the first without a text, after the records
before them. -/
def write : List (Event Float) → Array String → Journal
  | [], records => ⟨records, none⟩
  | e :: es, records =>
    match e.record with
    | .ok r => write es (records.push r)
    | .error _ => ⟨records, some e⟩

/-- The journal of a listener of a verbosity. Without a verbosity it hears nothing. -/
def ofEvents (verbosity : Option Level) (events : Array (Event Float)) : Journal :=
  match verbosity with
  | none => {}
  | some v => write (events.toList.filter (Event.heard v)) #[]

end Journal

end Spectrahedron
