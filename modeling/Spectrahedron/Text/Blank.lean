/-!
# White space

The characters with the Unicode property White_Space, and the removal of such characters from
both ends of a text.

**Theorem (`trim_eq_self`).** A text whose ends are not blank is left as it is.
-/

namespace Spectrahedron.Text

/-- The characters with the property White_Space. -/
def isBlank (c : Char) : Bool :=
  let n := c.toNat
  (9 ≤ n && n ≤ 13) || n == 0x20 || n == 0x85 || n == 0xa0 || n == 0x1680
    || (0x2000 ≤ n && n ≤ 0x200a) || n == 0x2028 || n == 0x2029 || n == 0x202f || n == 0x205f
    || n == 0x3000

/-- The text without the blanks at its beginning and at its end. -/
def trim (cs : List Char) : List Char :=
  (((cs.dropWhile isBlank).reverse).dropWhile isBlank).reverse

theorem trim_eq_self (cs : List Char) (h : ∀ c ∈ cs.head?, isBlank c = false)
    (h' : ∀ c ∈ cs.getLast?, isBlank c = false) : trim cs = cs := by
  have hstart : cs.dropWhile isBlank = cs := by
    cases cs with
    | nil => rfl
    | cons c r => simp [h c rfl]
  have hend : cs.reverse.dropWhile isBlank = cs.reverse := by
    cases hr : cs.reverse with
    | nil => rfl
    | cons c r =>
      have hc : cs.getLast? = some c := by rw [← List.head?_reverse, hr]; rfl
      simp [h' c hc]
  unfold trim
  rw [hstart, hend, List.reverse_reverse]

end Spectrahedron.Text
