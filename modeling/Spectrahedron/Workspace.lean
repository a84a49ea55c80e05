/-!
# Work slices

The algorithms keep their intermediate values in a slice that the caller owns, in consecutive
regions. A call reads the regions out of the slice, works on them, and joins them again, so that
what one call leaves behind is what the next one finds.

**Theorem (`getElem_window`, `window_append_rest`).** A window shows the entries of the slice, and
the window at the front joined with the entries behind it is the slice again.
-/

namespace Spectrahedron.Workspace

variable {α : Type}

/-- The `len` entries of a slice from position `start` on. -/
@[inline] def window (work : Array α) (start len : Nat) (h : start + len ≤ work.size) :
    Vector α len :=
  Vector.ofFn fun i => work.toVector.get ⟨start + i.val, by omega⟩

/-- The entries of a slice from position `start` on. -/
@[inline] def rest (work : Array α) (start : Nat) : Array α := work.extract start work.size

/-- The slice cut or filled up to a length. -/
def resize (work : Array α) (len : Nat) (fill : α) : Array α :=
  if len ≤ work.size then work.extract 0 len else work ++ Array.replicate (len - work.size) fill

theorem getElem_window (work : Array α) (start len : Nat) (h : start + len ≤ work.size) (i : Nat)
    (hi : i < len) : (window work start len h)[i] = work[start + i] := by
  simp only [window, Vector.getElem_ofFn]
  rfl

theorem window_append_rest (work : Array α) (len : Nat) (h : 0 + len ≤ work.size) :
    (window work 0 len h).toArray ++ rest work len = work := by
  apply Array.ext
  · simp only [rest, Array.size_append, Vector.size_toArray, Array.size_extract]
    omega
  · intro i hi hi'
    rw [Array.getElem_append]
    split
    · rename_i hlt
      have hlen : i < len := by simpa using hlt
      have hw := getElem_window work 0 len h i hlen
      simp only [Nat.zero_add] at hw
      exact hw
    · rename_i hge
      have hlen : len ≤ i := by simpa using hge
      simp only [rest, Array.getElem_extract, Vector.size_toArray]
      congr 1
      omega

@[simp] theorem size_resize (work : Array α) (len : Nat) (fill : α) :
    (resize work len fill).size = len := by
  unfold resize
  split
  · simp
    omega
  · simp
    omega

/-- Entries that fit are kept. -/
theorem getElem_resize_of_lt (work : Array α) (len : Nat) (fill : α) (i : Nat)
    (hi : i < work.size) (hl : i < len) :
    (resize work len fill)[i]? = some work[i] := by
  unfold resize
  split
  · rename_i h
    rw [Array.getElem?_eq_getElem (by simp; omega)]
    simp
  · rw [Array.getElem?_eq_getElem (by simp; omega)]
    simp [hi]

end Spectrahedron.Workspace
