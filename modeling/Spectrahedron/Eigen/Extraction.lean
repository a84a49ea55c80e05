import Spectrahedron.Event
import Spectrahedron.Kernel

/-!
# Extractions

What the extraction of a top eigenpair returns, however it ends. The vector and the work slice
belong to the caller and outlive a failure.
-/

namespace Spectrahedron

/-- The result of an extraction: the eigenvalue or the reason of the failure, the vector, which is
the eigenvector if there is an eigenvalue, and what is left in the work slice. -/
structure Extraction (α : Type) (n : Nat) (ω : Type) where
  outcome : Except Stop α
  vec : Vector α n
  work : ω
  events : Array (Event α) := #[]

/-- The same result with the work slice read in another way. -/
@[inline] def Extraction.mapWork {α ω ω' : Type} {n : Nat} (f : ω → ω') (e : Extraction α n ω) :
    Extraction α n ω' :=
  ⟨e.outcome, e.vec, f e.work, e.events⟩

end Spectrahedron
