import Mathlib.Data.List.Basic
import Mathlib.Logic.Function.Basic
import Spectrahedron.Environment
import Spectrahedron.Proofs.Numerals

/-!
# Overrides by the environment

The settings of a search are eleven numbers, the curvature possibly absent, and each has a variable
of its own. A setting after the override is the number in its variable, if there is one, and what it
was before otherwise. Since the settings are determined by these numbers, all else follows from this
law: settings do not interfere with each other, further variables have no effect, and a second
override changes nothing.

**Theorem (`Environment.overrideSearch_follows_variables`).** Each setting follows its own variable,
and a count follows it exactly when its text denotes a number below `2 ^ 64`.
-/

namespace Spectrahedron

/-! ## The settings -/

/-- The settings of a search, each of which has a variable. -/
inductive Setting where
  | maxIter
  | traceInit
  | curvature
  | epsZero
  | epsEig
  | epsSym
  | maxIterEig
  | krylovDim
  | lanczosMinDim
  | seed
  | logPeriod
  deriving DecidableEq

namespace Setting

/-- The settings in the order in which their variables are looked up. -/
def all : List Setting :=
  [maxIter, traceInit, curvature, epsZero, epsEig, epsSym, maxIterEig, krylovDim, lanczosMinDim,
    seed, logPeriod]

/-- The variable of a setting. -/
def name : Setting → String
  | maxIter => "HAZAN_MAX_ITER"
  | traceInit => "HAZAN_TRACE_INIT"
  | curvature => "HAZAN_CURVATURE"
  | epsZero => "HAZAN_EPS_ZERO"
  | epsEig => "HAZAN_EPS_EIG"
  | epsSym => "HAZAN_EPS_SYM"
  | maxIterEig => "HAZAN_MAX_ITER_EIG"
  | krylovDim => "HAZAN_LANCZOS_NCV"
  | lanczosMinDim => "HAZAN_LANCZOS_MIN_DIM"
  | seed => "HAZAN_SEED"
  | logPeriod => "HAZAN_LOG_PERIOD"

/-- The kind of numbers of a setting: counts and the seed are words, all others are binary64. -/
def kind : Setting → NumberKind
  | maxIter | maxIterEig | krylovDim | lanczosMinDim | seed | logPeriod => .word
  | traceInit | curvature | epsZero | epsEig | epsSym => .real

/-- The number that a setting has, if it has one. -/
def value : Setting → SearchSettings Float → Option Number
  | maxIter, s => some (.whole s.maxIter)
  | traceInit, s => some (.real s.traceInit)
  | curvature, s => s.curvature.map .real
  | epsZero, s => some (.real s.solver.epsZero)
  | epsEig, s => some (.real s.solver.epsEig)
  | epsSym, s => some (.real s.solver.epsSym)
  | maxIterEig, s => some (.whole s.solver.maxIterEig)
  | krylovDim, s => some (.whole s.solver.krylovDim)
  | lanczosMinDim, s => some (.whole s.solver.lanczosMinDim)
  | seed, s => some (.whole s.solver.seed.toNat)
  | logPeriod, s => some (.whole s.solver.logPeriod)

theorem name_injective : Function.Injective name := by
  intro v w h
  cases v <;> cases w <;> first | rfl | exact absurd h (by decide)

/-- The variables that are looked up are those of the settings. -/
theorem searchVariables_eq_map :
    Environment.searchVariables = all.map fun v => (v.name, v.kind) := rfl

theorem eq_of_whole_eq {m n : ℕ} (h : some (Number.whole m) = some (.whole n)) : m = n :=
  Int.ofNat.inj (Number.whole.inj (Option.some.inj h))

theorem eq_of_real_eq {x y : Float} (h : some (Number.real x) = some (.real y)) : x = y :=
  Number.real.inj (Option.some.inj h)

/-- Settings with the same numbers are the same. -/
theorem ext_value {s s' : SearchSettings Float} (h : ∀ v : Setting, v.value s = v.value s') :
    s = s' := by
  obtain ⟨iterations, scale, constant, zero, eig, sym, sweeps, krylov, lanczos, start, period⟩ := s
  obtain ⟨_, _, _, _, _, _, _, _, _, _, _⟩ := s'
  obtain rfl : iterations = _ := eq_of_whole_eq (h .maxIter)
  obtain rfl : scale = _ := eq_of_real_eq (h .traceInit)
  obtain rfl : constant = _ := Option.map_injective (fun _ _ => Number.real.inj) (h .curvature)
  obtain rfl : zero = _ := eq_of_real_eq (h .epsZero)
  obtain rfl : eig = _ := eq_of_real_eq (h .epsEig)
  obtain rfl : sym = _ := eq_of_real_eq (h .epsSym)
  obtain rfl : sweeps = _ := eq_of_whole_eq (h .maxIterEig)
  obtain rfl : krylov = _ := eq_of_whole_eq (h .krylovDim)
  obtain rfl : lanczos = _ := eq_of_whole_eq (h .lanczosMinDim)
  obtain rfl : start = _ := UInt64.toNat_inj.1 (eq_of_whole_eq (h .seed))
  obtain rfl : period = _ := eq_of_whole_eq (h .logPeriod)
  rfl

end Setting

/-! ## Numbers in variables -/

theorem NumberKind.read?_word (cs : List Char) :
    word.read? cs = (Decimal.unsigned? wordBound cs).map fun n => .whole n := by
  unfold read? word
  dsimp only
  cases Decimal.unsigned? wordBound cs <;> rfl

namespace Environment

variable {env env' : Environment} {name : String}

theorem number?_congr (h : env' name = env name) (kind : NumberKind) :
    env'.number? kind name = env.number? kind name := by
  unfold number?
  rw [h]

theorem number?_eq_bind (env : Environment) (kind : NumberKind) (name : String) :
    env.number? kind name = (env name).bind fun text => kind.read? (Text.trim text.toList) := by
  unfold number?
  cases env name <;> rfl

theorem word?_eq_bind (env : Environment) (name : String) :
    env.word? name
      = (env name).bind fun text => Decimal.unsigned? wordBound (Text.trim text.toList) := by
  unfold word?
  rw [number?_eq_bind]
  cases env name with
  | none => rfl
  | some text =>
    rw [Option.bind_some, NumberKind.read?_word, Option.bind_some]
    cases Decimal.unsigned? wordBound (Text.trim text.toList) <;> rfl

theorem number?_word (env : Environment) (name : String) :
    env.number? .word name = (env.word? name).map fun n => .whole n := by
  rw [number?_eq_bind, word?_eq_bind, Option.map_bind]
  simp only [NumberKind.read?_word]
  rfl

theorem number?_real (env : Environment) (name : String) :
    env.number? .real name = (env.real? name).map .real := by
  unfold real?
  rw [number?_eq_bind]
  cases env name with
  | none => rfl
  | some text =>
    rw [Option.bind_some, NumberKind.read?]
    cases Decimal.float? (Text.trim text.toList) <;> rfl

/-- The words in variables are the numbers below `2 ^ 64` that their texts denote. -/
theorem word?_eq_some_iff {n : ℕ} :
    env.word? name = some n ↔
      ∃ text, env name = some text ∧ Decimal.Denotes text.toList n ∧ n < 2 ^ 64 := by
  rw [word?_eq_bind, Option.bind_eq_some_iff]
  exact exists_congr fun text => and_congr_right fun _ => Decimal.unsigned?_trim_eq_some_iff

/-! ## One setting -/

theorem whole_getD (env : Environment) (name : String) (n : ℕ) :
    some (.whole ((env.word? name).getD n)) = (env.number? .word name).or (some (.whole n)) := by
  rw [number?_word]
  cases env.word? name <;> rfl

theorem real_getD (env : Environment) (name : String) (x : Float) :
    some (.real ((env.real? name).getD x)) = (env.number? .real name).or (some (.real x)) := by
  rw [number?_real]
  cases env.real? name <;> rfl

theorem real_or (env : Environment) (name : String) (x : Option Float) :
    ((env.real? name).or x).map .real = (env.number? .real name).or (x.map .real) := by
  rw [number?_real]
  cases env.real? name <;> rfl

/-- A word that becomes the seed is not cut off. -/
theorem seed_getD (env : Environment) (name : String) (k : UInt64) :
    some (.whole (((env.word? name).map UInt64.ofNat).getD k).toNat)
      = (env.number? .word name).or (some (.whole k.toNat)) := by
  rw [number?_word]
  cases h : env.word? name with
  | none => rfl
  | some n =>
    obtain ⟨-, -, -, hlt⟩ := word?_eq_some_iff.1 h
    have hseed : (UInt64.ofNat n).toNat = n := UInt64.toNat_ofNat_of_lt' hlt
    rw [Option.map_some, Option.getD_some, hseed]
    rfl

/-- **One setting.** It is the number in its variable, if there is one, and is left otherwise. -/
theorem value_overrideSearch (env : Environment) (s : SearchSettings Float) (v : Setting) :
    v.value (env.overrideSearch s) = (env.number? v.kind v.name).or (v.value s) := by
  cases v with
  | maxIter | maxIterEig | krylovDim | lanczosMinDim | logPeriod => exact env.whole_getD _ _
  | traceInit | epsZero | epsEig | epsSym => exact env.real_getD _ _
  | curvature => exact env.real_or _ _
  | seed => exact env.seed_getD _ _

/-! ## All settings -/

theorem value_overrideSearch_congr {v : Setting} (h : env' v.name = env v.name)
    (s : SearchSettings Float) :
    v.value (env'.overrideSearch s) = v.value (env.overrideSearch s) := by
  rw [value_overrideSearch, value_overrideSearch, number?_congr h]

theorem overrideSearch_congr (h : ∀ v : Setting, env' v.name = env v.name)
    (s : SearchSettings Float) : env'.overrideSearch s = env.overrideSearch s :=
  Setting.ext_value fun v => value_overrideSearch_congr (h v) s

theorem overrideSearch_overrideSearch (env : Environment) (s : SearchSettings Float) :
    env.overrideSearch (env.overrideSearch s) = env.overrideSearch s := by
  refine Setting.ext_value fun v => ?_
  rw [value_overrideSearch, value_overrideSearch]
  cases env.number? v.kind v.name <;> rfl

theorem events_searchVariables_congr (h : ∀ v : Setting, env' v.name = env v.name) :
    env'.events searchVariables = env.events searchVariables := by
  unfold events numberEvents
  rw [Setting.searchVariables_eq_map, List.foldl_map, List.foldl_map]
  refine List.foldl_ext _ _ _ fun es v _ => ?_
  rw [number?_congr (h v)]

/-- **Overrides.** A setting becomes the number read from its own variable, if that is set and read,
and is left otherwise. Other variables, of settings or not, have no effect on it, and overriding
twice is overriding once. A word follows its variable exactly when the text denotes a number below
`2 ^ 64`, and becomes that number. -/
theorem overrideSearch_follows_variables (env : Environment) (s : SearchSettings Float) :
    (∀ v : Setting, v.value (env.overrideSearch s)
      = ((env v.name).bind fun text => v.kind.read? (Text.trim text.toList)).or (v.value s)) ∧
    (∀ v w : Setting, v ≠ w → ∀ text : Option String,
      v.value (overrideSearch (Function.update env w.name text) s)
        = v.value (env.overrideSearch s)) ∧
    (∀ env' : Environment, (∀ v : Setting, env' v.name = env v.name) →
      env'.overrideSearch s = env.overrideSearch s ∧
        env'.events searchVariables = env.events searchVariables) ∧
    env.overrideSearch (env.overrideSearch s) = env.overrideSearch s ∧
    ∀ v : Setting, v.kind = .word → ∀ text, env v.name = some text →
      (∀ n < 2 ^ 64, Decimal.Denotes text.toList n →
        v.value (env.overrideSearch s) = some (.whole n)) ∧
      ((∀ n < 2 ^ 64, ¬Decimal.Denotes text.toList n) →
        v.value (env.overrideSearch s) = v.value s) := by
  refine ⟨env.value_overrideSearch s, fun v w hne text => ?_,
    fun env' h => ⟨overrideSearch_congr h s, events_searchVariables_congr h⟩,
    env.overrideSearch_overrideSearch s, fun v hkind text htext => ⟨fun n hn hdenotes => ?_,
      fun hnone => ?_⟩⟩
  · exact value_overrideSearch_congr
      (Function.update_of_ne (fun h => hne (Setting.name_injective h)) _ _) s
  · rw [value_overrideSearch, hkind, number?_word,
      word?_eq_some_iff.2 ⟨text, htext, hdenotes, hn⟩]
    rfl
  · have hword : env.word? v.name = none := by
      refine Option.eq_none_iff_forall_ne_some.2 fun n hread => ?_
      obtain ⟨text', htext', hdenotes, hn⟩ := word?_eq_some_iff.1 hread
      obtain rfl : text = text' := Option.some.inj (htext.symm.trans htext')
      exact hnone n hn hdenotes
    rw [value_overrideSearch, hkind, number?_word, hword]
    rfl

/-- The greatest word with white space, a plus sign and leading zeros; a number one beyond it; and a
variable of no setting. -/
def greatestSeed : Environment :=
  .ofList [("HAZAN_SEED", "\u2003+00018446744073709551615\n"),
    ("HAZAN_MAX_ITER", "18446744073709551616"), ("HOME", "4")]

theorem greatestSeed_denotes :
    Decimal.Denotes "\u2003+00018446744073709551615\n".toList 18446744073709551615 :=
  @Decimal.Denotes.intro ['\u2003'] _ ['\n'] _ (List.forall_mem_singleton.2 (by decide))
    (List.forall_mem_singleton.2 (by decide))
    (@Decimal.Numeral.plus [0, 0, 0, 1, 8, 4, 4, 6, 7, 4, 4, 0, 7, 3, 7, 0, 9, 5, 5, 1, 6, 1, 5]
      (by decide))

theorem greatestSeed_follows_variables :
    Setting.seed.value (greatestSeed.overrideSearch .default)
      = some (.whole 18446744073709551615) ∧
    Setting.maxIter.value (greatestSeed.overrideSearch .default) = some (.whole 50) ∧
    Setting.seed.value
        (overrideSearch (Function.update greatestSeed "HAZAN_MAX_ITER" none) .default)
      = Setting.seed.value (greatestSeed.overrideSearch .default) ∧
    overrideSearch (Function.update greatestSeed "HOME" none) .default
      = greatestSeed.overrideSearch .default := by
  obtain ⟨-, hother, hagree, -, hword⟩ :=
    overrideSearch_follows_variables greatestSeed SearchSettings.default
  have hbeyond : ∀ n < 2 ^ 64, ¬Decimal.Denotes "18446744073709551616".toList n := by
    intro n hn hdenotes
    have hread := Decimal.unsigned?_trim_eq_some_iff.2 ⟨hdenotes, hn⟩
    have hnone : Decimal.unsigned? (2 ^ 64) (Text.trim "18446744073709551616".toList) = none := by
      decide
    rw [hnone] at hread
    cases hread
  refine ⟨(hword .seed rfl _ rfl).1 _ (by decide) greatestSeed_denotes,
    (hword .maxIter rfl _ rfl).2 hbeyond, hother .seed .maxIter (by decide) none,
    (hagree _ fun v => Function.update_of_ne ?_ _ _).1⟩
  cases v <;> decide

end Environment

end Spectrahedron
