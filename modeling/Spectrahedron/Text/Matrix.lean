import Spectrahedron.Decimal.Text
import Spectrahedron.SquareMatrix

/-!
# The text of a matrix

A matrix is shown by its corners, in scientific form with three digits after the point, and by its
dimensions. Dots stand for the rows and columns between the corners.
-/

namespace Spectrahedron.SquareMatrix

/-- The corners of a matrix and its dimensions. -/
def display (A : SquareMatrix Float) : String :=
  let n := A.dim
  let body :=
    if h : 0 < n then
      let first : Fin n := ⟨0, h⟩
      let last : Fin n := ⟨n - 1, Nat.sub_lt h Nat.one_pos⟩
      let entry (r c : Fin n) : String := Decimal.scientific 3 (A.entries.get r c)
      let dots := if 2 < n then " ..." else ""
      let middle := if 2 < n then "\n  ..." else ""
      if 1 < n then
        "[ " ++ entry first first ++ dots ++ " " ++ entry first last ++ middle
          ++ "\n  " ++ entry last first ++ dots ++ " " ++ entry last last ++ " ]"
      else "[ " ++ entry first first ++ " ]"
    else "[ ]"
  body ++ " (" ++ toString n ++ " x " ++ toString n ++ ")"

end Spectrahedron.SquareMatrix
