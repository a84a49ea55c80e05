import Spectrahedron.Kernel

/-!
# Random numbers

A stream of random words as a pure state: the generator Xoshiro256**, whose state is seeded with
four words of SplitMix64. Arithmetic on words is modulo `2 ^ 64`.
-/

namespace Spectrahedron

/-! ## Words -/

/-- The state of SplitMix64. -/
structure SplitMix where
  state : UInt64

/-- The next word and the state after it. -/
def SplitMix.next (g : SplitMix) : UInt64 × SplitMix :=
  let x := g.state + 0x9e3779b97f4a7c15
  let z := (x ^^^ (x >>> 30)) * 0xbf58476d1ce4e5b9
  let z := (z ^^^ (z >>> 27)) * 0x94d049bb133111eb
  (z ^^^ (z >>> 31), ⟨x⟩)

/-- The state of Xoshiro256**. -/
structure Xoshiro where
  s0 : UInt64
  s1 : UInt64
  s2 : UInt64
  s3 : UInt64
  deriving DecidableEq, Repr

namespace Xoshiro

/-- The state for a seed. -/
def ofSeed (seed : UInt64) : Xoshiro :=
  let (s0, g) := SplitMix.next ⟨seed⟩
  let (s1, g) := g.next
  let (s2, g) := g.next
  let (s3, _) := g.next
  ⟨s0, s1, s2, s3⟩

/-- The bits of a word turned to the left by `k` places, `0 < k < 64`. -/
@[inline] def rotateLeft (x k : UInt64) : UInt64 := (x <<< k) ||| (x >>> (64 - k))

/-- The next word and the state after it. -/
def next (g : Xoshiro) : UInt64 × Xoshiro :=
  let word := rotateLeft (g.s1 * 5) 7 * 9
  let t := g.s1 <<< 17
  let s2 := g.s2 ^^^ g.s0
  let s3 := g.s3 ^^^ g.s1
  let s1 := g.s1 ^^^ s2
  let s0 := g.s0 ^^^ s3
  (word, ⟨s0, s1, s2 ^^^ t, rotateLeft s3 45⟩)

/-! ## Numbers -/

variable {α : Type} [Scalar α] {n : Nat}

/-- The next number in `[0, 1)`, a multiple of `2⁻⁵³`, and the state after it. -/
@[specialize] def unit (g : Xoshiro) : α × Xoshiro :=
  let (word, g) := g.next
  (((word >>> 11).toNat : α) / (Nat.pow 2 53 : α), g)

/-- A vector whose entries, from the first to the last, are images of the next numbers, written
over the vector `old`; and the state after them. -/
@[specialize] def fill (f : α → α) (old : Vector α n) (g : Xoshiro) : Vector α n × Xoshiro :=
  Fin.foldl n (fun (v, g) i =>
    let (u, g) := unit g
    (Vec.setEntry v i (f u), g)) (old, g)

end Xoshiro

end Spectrahedron
