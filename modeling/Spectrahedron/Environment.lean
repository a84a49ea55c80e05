import Spectrahedron.Decimal.Numeral
import Spectrahedron.Decimal.Text
import Spectrahedron.Event
import Spectrahedron.Text.Blank

/-!
# Settings from the environment

Each setting has a variable of its own. A variable that is set to a numeral of the right kind
replaces the setting; any other variable leaves it as it is. White space around a numeral is
ignored.
-/

namespace Spectrahedron

/-- The variables that are set, with their texts. -/
abbrev Environment := String → Option String

/-- The environment of a list of variables, the first of which counts where two have one name. -/
def Environment.ofList (vars : List (String × String)) : Environment := fun name => vars.lookup name

/-! ## Numerals of a kind -/

/-- A kind of numbers: whole numbers below a bound, whole numbers from the negated bound up to
below the bound, and binary64 numbers. -/
inductive NumberKind where
  | unsigned (bound : Nat)
  | signed (bound : Nat)
  | real

/-- A number of one of the kinds. -/
inductive Number where
  | whole (n : Int)
  | real (x : Float)

/-- The number that a numeral stands for. -/
def NumberKind.read? : NumberKind → List Char → Option Number
  | unsigned bound, cs => (Decimal.unsigned? bound cs).map fun n => .whole n
  | signed bound, cs => (Decimal.signed? bound cs).map .whole
  | real, cs => (Decimal.float? cs).map .real

/-- The plain form of a number. -/
def Number.text : Number → String
  | whole n => toString n
  | real x => Decimal.plain x

/-- The numbers of 64 bits, which counts and the seed are. -/
def NumberKind.word : NumberKind := .unsigned wordBound

namespace Environment

/-- The number of a kind in a variable, if there is one. -/
def number? (env : Environment) (kind : NumberKind) (name : String) : Option Number := do
  let text ← env name
  kind.read? (Text.trim text.toList)

/-- What is reported of a variable. -/
def numberEvents (env : Environment) (kind : NumberKind) (name : String) : Array (Event Float) :=
  match env.number? kind name with
  | some v => #[.environment name v.text]
  | none => #[]

/-- The count in a variable, if there is one. -/
def word? (env : Environment) (name : String) : Option Nat := do
  match ← env.number? .word name with
  | .whole n => some n.toNat
  | .real _ => none

/-- The binary64 number in a variable, if there is one. -/
def real? (env : Environment) (name : String) : Option Float := do
  match ← env.number? .real name with
  | .real x => some x
  | .whole _ => none

/-! ## The variables of the settings -/

/-- The variables of the settings of a solve, in the order in which they are looked up. -/
def settingsVariables : List (String × NumberKind) :=
  [("HAZAN_EPS_ZERO", .real), ("HAZAN_EPS_EIG", .real), ("HAZAN_EPS_SYM", .real),
    ("HAZAN_MAX_ITER_EIG", .word), ("HAZAN_LANCZOS_NCV", .word), ("HAZAN_LANCZOS_MIN_DIM", .word),
    ("HAZAN_SEED", .word), ("HAZAN_LOG_PERIOD", .word)]

/-- The variables of the settings of a search, in the order in which they are looked up. -/
def searchVariables : List (String × NumberKind) :=
  [("HAZAN_MAX_ITER", .word), ("HAZAN_TRACE_INIT", .real), ("HAZAN_CURVATURE", .real)]
    ++ settingsVariables

/-- What is reported of a list of variables. -/
def events (env : Environment) (lookups : List (String × NumberKind)) : Array (Event Float) :=
  lookups.foldl (fun es v => es ++ env.numberEvents v.2 v.1) #[]

/-- The settings of a solve with those replaced that the environment gives. -/
def overrideSettings (env : Environment) (s : Settings Float) : Settings Float where
  epsZero := (env.real? "HAZAN_EPS_ZERO").getD s.epsZero
  epsEig := (env.real? "HAZAN_EPS_EIG").getD s.epsEig
  epsSym := (env.real? "HAZAN_EPS_SYM").getD s.epsSym
  maxIterEig := (env.word? "HAZAN_MAX_ITER_EIG").getD s.maxIterEig
  krylovDim := (env.word? "HAZAN_LANCZOS_NCV").getD s.krylovDim
  lanczosMinDim := (env.word? "HAZAN_LANCZOS_MIN_DIM").getD s.lanczosMinDim
  seed := ((env.word? "HAZAN_SEED").map UInt64.ofNat).getD s.seed
  logPeriod := (env.word? "HAZAN_LOG_PERIOD").getD s.logPeriod

/-- The settings of a search with those replaced that the environment gives. -/
def overrideSearch (env : Environment) (s : SearchSettings Float) : SearchSettings Float where
  maxIter := (env.word? "HAZAN_MAX_ITER").getD s.maxIter
  traceInit := (env.real? "HAZAN_TRACE_INIT").getD s.traceInit
  curvature := (env.real? "HAZAN_CURVATURE").or s.curvature
  solver := env.overrideSettings s.solver

end Environment

end Spectrahedron
