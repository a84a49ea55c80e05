import Mathlib.Data.List.Induction
import Mathlib.Data.List.TakeWhile
import Mathlib.Data.Nat.Digits.Defs
import Mathlib.Data.Set.List
import Spectrahedron.Decimal.Numeral
import Spectrahedron.Text.Blank

/-!
# Texts of whole numbers

A whole number is read in two steps: white space is removed from both ends of the text, and what is
left must be digits, with a plus sign in front or without. Turned around, a text denotes a number if
it is a numeral of the number with white space on both sides. The number is that of positional
notation, of any size; only then is it compared with a bound.

**Theorem (`Decimal.unsigned?_trim_eq_some_iff`).** What is read from a text is the number that it
denotes, if that is below the bound; from any other text nothing is read.
-/

namespace Spectrahedron

/-! ## White space around a text -/

namespace Text

/-- The code points of the characters with the property White_Space. -/
def whiteSpace : List ℕ :=
  [0x9, 0xa, 0xb, 0xc, 0xd, 0x20, 0x85, 0xa0, 0x1680, 0x2000, 0x2001, 0x2002, 0x2003, 0x2004,
    0x2005, 0x2006, 0x2007, 0x2008, 0x2009, 0x200a, 0x2028, 0x2029, 0x202f, 0x205f, 0x3000]

theorem isBlank_iff {c : Char} : isBlank c = true ↔ c.toNat ∈ whiteSpace := by
  simp only [isBlank, whiteSpace, Bool.or_eq_true, Bool.and_eq_true, decide_eq_true_eq,
    beq_iff_eq, List.mem_cons, List.not_mem_nil, or_false]
  omega

theorem trim_blanks_append {before : List Char} (h : ∀ c ∈ before, isBlank c = true)
    (cs : List Char) : trim (before ++ cs) = trim cs := by
  rw [trim, trim, List.dropWhile_append_of_pos h]

theorem trim_append_blanks {after : List Char} (h : ∀ c ∈ after, isBlank c = true)
    (cs : List Char) : trim (cs ++ after) = trim cs := by
  rw [trim, trim, List.dropWhile_append]
  split
  · rename_i hempty
    rw [List.isEmpty_iff.1 hempty, List.dropWhile_eq_nil_iff.2 h]
  · rw [List.reverse_append,
      List.dropWhile_append_of_pos fun c hc => h c (List.mem_reverse.1 hc)]

/-- Only blanks are removed, and only from the ends. -/
theorem exists_append_trim_append (cs : List Char) :
    ∃ before after, (∀ c ∈ before, isBlank c = true) ∧ (∀ c ∈ after, isBlank c = true) ∧
      cs = before ++ trim cs ++ after := by
  refine ⟨cs.takeWhile isBlank, ((cs.dropWhile isBlank).reverse.takeWhile isBlank).reverse,
    fun c hc => List.mem_takeWhile_imp hc,
    fun c hc => List.mem_takeWhile_imp (List.mem_reverse.1 hc), ?_⟩
  have hafter : cs.dropWhile isBlank
      = trim cs ++ ((cs.dropWhile isBlank).reverse.takeWhile isBlank).reverse := by
    rw [trim, ← List.reverse_append, List.takeWhile_append_dropWhile, List.reverse_reverse]
  rw [List.append_assoc, ← hafter, List.takeWhile_append_dropWhile]

end Text

/-! ## Numerals -/

namespace Decimal

/-- The number that digits write in positional notation, the leading digit first. -/
def positional (ds : List (Fin 10)) : ℕ := Nat.ofDigits 10 (ds.reverse.map Fin.val)

/-- The character of a digit. -/
def digitChar (d : Fin 10) : Char := Nat.digitChar d

/-- The characters of digits. -/
def chars (ds : List (Fin 10)) : List Char := ds.map digitChar

/-- The numerals of a number: one or more digits, with a plus sign in front or without. Zeros may
lead. -/
inductive Numeral : List Char → ℕ → Prop
  | plain {ds : List (Fin 10)} (h : ds ≠ []) : Numeral (chars ds) (positional ds)
  | plus {ds : List (Fin 10)} (h : ds ≠ []) : Numeral ('+' :: chars ds) (positional ds)

/-- The text is a numeral of the number with white space on both sides. -/
inductive Denotes : List Char → ℕ → Prop
  | intro {before cs after : List Char} {n : ℕ}
      (hbefore : ∀ c ∈ before, c.toNat ∈ Text.whiteSpace)
      (hafter : ∀ c ∈ after, c.toNat ∈ Text.whiteSpace) (h : Numeral cs n) :
      Denotes (before ++ cs ++ after) n

/-! ## Digits -/

theorem toNat_digitChar (d : Fin 10) : (digitChar d).toNat = 48 + d :=
  Nat.toNat_digitChar_of_lt_ten d.isLt

theorem isDigit_iff {c : Char} : isDigit c = true ↔ 48 ≤ c.toNat ∧ c.toNat ≤ 57 := by
  unfold isDigit
  rw [Bool.and_eq_true, decide_eq_true_eq, decide_eq_true_eq]
  rfl

theorem isDigit_iff_mem_range {c : Char} :
    isDigit c = true ↔ c ∈ Set.range digitChar := by
  rw [isDigit_iff]
  constructor
  · rintro ⟨hlow, hhigh⟩
    refine ⟨⟨c.toNat - 48, by omega⟩, Char.toNat_inj.1 ?_⟩
    rw [toNat_digitChar]
    dsimp only
    omega
  · rintro ⟨d, rfl⟩
    rw [toNat_digitChar]
    omega

theorem all_isDigit_iff {cs : List Char} : cs.all isDigit = true ↔ ∃ ds, chars ds = cs := by
  have hrange := Set.ext_iff.1 (Set.range_list_map digitChar) cs
  simp only [List.all_eq_true, isDigit_iff_mem_range]
  exact hrange.symm

/-- The running value of the reader is that of positional notation. -/
theorem ofDigits_chars (ds : List (Fin 10)) : ofDigits (chars ds) = positional ds := by
  -- The reader has seen all digits but the last when it takes up the last.
  induction ds using List.reverseRecOn with
  | nil => rfl
  | append_singleton ds d ih =>
    have hdigit : (digitChar d).toNat - '0'.toNat = d := by
      rw [toNat_digitChar]
      exact Nat.add_sub_cancel_left 48 d
    unfold ofDigits chars positional at ih ⊢
    rw [List.map_append, List.foldl_append, ih, List.reverse_append, List.map_append,
      List.map_singleton, List.foldl_cons, List.foldl_nil, List.reverse_singleton,
      List.map_singleton, List.singleton_append, Nat.ofDigits_cons, hdigit, Nat.add_comm]

theorem natural?_eq_some_iff {cs : List Char} {n : ℕ} :
    natural? cs = some n ↔ ∃ ds, ds ≠ [] ∧ cs = chars ds ∧ n = positional ds := by
  unfold natural?
  constructor
  · intro h
    split at h
    · rename_i hcs
      obtain ⟨ds, rfl⟩ := all_isDigit_iff.1 hcs.2
      refine ⟨ds, fun hds => hcs.1 (congrArg chars hds), rfl, ?_⟩
      rw [← ofDigits_chars]
      exact (Option.some.inj h).symm
    · cases h
  · rintro ⟨ds, hds, rfl, rfl⟩
    rw [if_pos ⟨fun h => hds (List.map_eq_nil_iff.1 h), all_isDigit_iff.2 ⟨ds, rfl⟩⟩,
      ofDigits_chars]

/-! ## Signs -/

/-- Digits have no sign in front. -/
theorem splitSign_chars (ds : List (Fin 10)) : splitSign (chars ds) = (none, chars ds) := by
  cases ds with
  | nil => rfl
  | cons d ds =>
    have hsign : digitChar d ≠ '+' ∧ digitChar d ≠ '-' := by
      revert d
      decide
    unfold splitSign
    split
    · rename_i h
      exact absurd (List.cons.inj h).1 hsign.1
    · rename_i h
      exact absurd (List.cons.inj h).1 hsign.2
    · rfl

theorem eq_of_splitSign_eq {cs ds : List Char} {sign : Option Bool}
    (h : splitSign cs = (sign, ds)) :
    sign = some true ∨ sign = some false ∧ cs = '+' :: ds ∨ sign = none ∧ cs = ds := by
  unfold splitSign at h
  split at h
  · cases h
    exact Or.inr (Or.inl ⟨rfl, rfl⟩)
  · cases h
    exact Or.inl rfl
  · cases h
    exact Or.inr (Or.inr ⟨rfl, rfl⟩)

theorem unsigned?_eq_some_iff {bound n : ℕ} {cs : List Char} :
    unsigned? bound cs = some n ↔ Numeral cs n ∧ n < bound := by
  unfold unsigned?
  constructor
  · intro h
    split at h
    · cases h
    · rename_i sign rest hminus hsplit
      obtain ⟨hread, hlt⟩ := Option.filter_eq_some_iff.1 h
      refine ⟨?_, of_decide_eq_true hlt⟩
      obtain ⟨ds, hds, rfl, rfl⟩ := natural?_eq_some_iff.1 hread
      obtain rfl | ⟨-, rfl⟩ | ⟨-, rfl⟩ := eq_of_splitSign_eq hsplit
      · exact (hminus rfl).elim
      · exact .plus hds
      · exact .plain hds
  · rintro ⟨hnumeral, hlt⟩
    cases hnumeral with
    | plain hds =>
      rw [splitSign_chars]
      exact Option.filter_eq_some_iff.2
        ⟨natural?_eq_some_iff.2 ⟨_, hds, rfl, rfl⟩, decide_eq_true hlt⟩
    | plus hds =>
      exact Option.filter_eq_some_iff.2
        ⟨natural?_eq_some_iff.2 ⟨_, hds, rfl, rfl⟩, decide_eq_true hlt⟩

/-! ## Texts -/

theorem isBlank_digitChar (d : Fin 10) : Text.isBlank (digitChar d) = false := by
  revert d
  decide

theorem isBlank_chars {ds : List (Fin 10)} {c : Char} (hc : c ∈ chars ds) :
    Text.isBlank c = false := by
  obtain ⟨d, -, rfl⟩ := List.mem_map.1 hc
  exact isBlank_digitChar d

theorem Numeral.isBlank_eq {cs : List Char} {n : ℕ} (h : Numeral cs n) {c : Char} (hc : c ∈ cs) :
    Text.isBlank c = false := by
  cases h with
  | plain => exact isBlank_chars hc
  | plus =>
    rcases List.mem_cons.1 hc with rfl | hc
    · rfl
    · exact isBlank_chars hc

theorem Numeral.trim_eq {cs : List Char} {n : ℕ} (h : Numeral cs n) : Text.trim cs = cs :=
  Text.trim_eq_self cs (fun _ hc => h.isBlank_eq (List.mem_of_mem_head? hc))
    fun _ hc => h.isBlank_eq (List.mem_of_mem_getLast? hc)

/-- **Reading a text.** -/
theorem unsigned?_trim_eq_some_iff {bound n : ℕ} {cs : List Char} :
    unsigned? bound (Text.trim cs) = some n ↔ Denotes cs n ∧ n < bound := by
  rw [unsigned?_eq_some_iff]
  refine and_congr_left fun _ => ⟨fun h => ?_, ?_⟩
  · obtain ⟨before, after, hbefore, hafter, hcs⟩ := Text.exists_append_trim_append cs
    rw [hcs]
    exact .intro (fun c hc => Text.isBlank_iff.1 (hbefore c hc))
      (fun c hc => Text.isBlank_iff.1 (hafter c hc)) h
  · rintro ⟨hbefore, hafter, h⟩
    rw [Text.trim_append_blanks fun c hc => Text.isBlank_iff.2 (hafter c hc),
      Text.trim_blanks_append fun c hc => Text.isBlank_iff.2 (hbefore c hc), h.trim_eq]
    exact h

end Decimal

end Spectrahedron
