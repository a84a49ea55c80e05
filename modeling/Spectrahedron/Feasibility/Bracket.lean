import Spectrahedron.Scalar

/-!
# Brackets

The search for a trace scale keeps a lower and an upper end, both of them scales that have been
rejected. A rejected scale becomes one of the ends, by the sign of its sensitivity; the next scale
is twice or half of it while one end is missing, and the middle of both ends afterwards.
-/

namespace Spectrahedron

open Scalar

/-- A lower end, which is zero while there is none, an upper end, and the scale to be tried. -/
structure Bracket (α : Type) where
  lo : α
  hi : Option α
  scale : α
  deriving Repr

namespace Bracket

variable {α : Type} [Scalar α]

/-- The bracket before the first scale is tried. -/
def start (scale : α) : Bracket α := ⟨0, none, scale⟩

/-- The bracket after its scale has been rejected with a sensitivity. -/
def reject (b : Bracket α) (sensitivity : α) : Bracket α :=
  if 0 < sensitivity then
    { b with
      lo := b.scale
      scale := match b.hi with
        | some h => (b.scale + h) / two
        | none => b.scale * two }
  else
    { b with
      hi := some b.scale
      scale := if 0 < b.lo then (b.lo + b.scale) / two else b.scale / two }

/-- Whether a scale can be tried: it is positive and finite. -/
def admissible (scale : α) : Prop := 0 < scale ∧ isFinite scale = true

instance instDecidableAdmissible (scale : α) : Decidable (admissible scale) :=
  inferInstanceAs (Decidable (_ ∧ _))

end Bracket

end Spectrahedron
