/-!
# Entries of vectors

What the operations on vectors do to their entries. An entry is read with `Vector.get`, whose index
is bounded by its type.

**Theorem (`get_ofFn`, `get_map`, `get_setEntry`).** Each entry of `Vector.ofFn f` is the value of
`f`, each entry of an image is the image of the entry, and `setEntry` changes one entry and no
other.
-/

namespace Spectrahedron.Vec

variable {α β : Type} {n : Nat}

theorem ext_get {x y : Vector α n} (h : ∀ i, x.get i = y.get i) : x = y :=
  Vector.ext fun i hi => h ⟨i, hi⟩

theorem get_eq (x : Vector α n) (i : Fin n) : x.get i = x[i.val] := rfl

@[simp] theorem get_ofFn (f : Fin n → α) (i : Fin n) : (Vector.ofFn f).get i = f i := by
  rw [get_eq, Vector.getElem_ofFn]

@[simp] theorem get_map (f : α → β) (x : Vector α n) (i : Fin n) :
    (x.map f).get i = f (x.get i) := by
  rw [get_eq, get_eq, Vector.getElem_map]

/-- The vector with one entry replaced. -/
@[inline] def setEntry (x : Vector α n) (i : Fin n) (a : α) : Vector α n := x.set i.val a i.isLt

theorem get_setEntry (x : Vector α n) (i j : Fin n) (a : α) :
    (setEntry x i a).get j = if i = j then a else x.get j := by
  simp only [get_eq, setEntry, Vector.getElem_set, Fin.val_inj]

end Spectrahedron.Vec
