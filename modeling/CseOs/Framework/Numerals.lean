import Mathlib.Data.Nat.Digits.Defs

/-!
# Numerals

Numbers written with the most significant digit first, in any alphabet of digits, and read back.
-/

namespace CseOs.Framework.Numeral

variable {α : Type} {base n k d : Nat} {ds : List Nat}

/-- The digits of a number, of which there is always one. -/
def digitsOf (base n : Nat) : List Nat := if n = 0 then [0] else (Nat.digits base n).reverse

def numeral (glyph : Nat → α) (base n : Nat) : List α := (digitsOf base n).map glyph

/-- The number that a list of symbols denotes, if they are all digits. -/
def readNumeral (value : α → Option Nat) (base : Nat) (l : List α) : Option Nat :=
  if l.isEmpty then none else (l.mapM value).map fun ds => Nat.ofDigits base ds.reverse

theorem digitsOf_of_lt (h : n < base) : digitsOf base n = [n] := by
  by_cases hzero : n = 0
  · rw [digitsOf, if_pos hzero, hzero]
  · rw [digitsOf, if_neg hzero, Nat.digits_of_lt base n hzero h]
    rfl

/-- The last digit is the remainder. -/
theorem digitsOf_div (hbase : 1 < base) (h : 0 < n / base) :
    digitsOf base n = digitsOf base (n / base) ++ [n % base] := by
  have hpos : 0 < n := Nat.pos_of_ne_zero fun h0 => by simp [h0] at h
  rw [digitsOf, if_neg (by omega), digitsOf, if_neg (by omega), Nat.digits_def' hbase hpos,
    List.reverse_cons]

theorem ofDigits_digitsOf (base n : Nat) : Nat.ofDigits base (digitsOf base n).reverse = n := by
  by_cases hzero : n = 0
  · rw [digitsOf, if_pos hzero, hzero]
    simp
  · rw [digitsOf, if_neg hzero, List.reverse_reverse, Nat.ofDigits_digits]

theorem digitsOf_lt (hbase : 1 < base) (hd : d ∈ digitsOf base n) : d < base := by
  by_cases hzero : n = 0
  · rw [digitsOf, if_pos hzero] at hd
    have := List.mem_singleton.mp hd
    omega
  · rw [digitsOf, if_neg hzero] at hd
    exact Nat.digits_lt_base hbase (List.mem_reverse.mp hd)

theorem digitsOf_ne_nil (base n : Nat) : digitsOf base n ≠ [] := by
  by_cases hzero : n = 0
  · simp [digitsOf, hzero]
  · simp [digitsOf, hzero, Nat.digits_ne_nil_iff_ne_zero]

section Reading

variable {glyph : Nat → α} {value : α → Option Nat}

theorem mapM_glyph (h : ∀ d ∈ ds, value (glyph d) = some d) : (ds.map glyph).mapM value = some ds := by
  induction ds with
  | nil => rfl
  | cons d ds ih =>
    have htail := ih fun d hd => h d (List.mem_cons_of_mem _ hd)
    simp [h d List.mem_cons_self, htail]

theorem readNumeral_glyphs (base : Nat) (hne : ds ≠ []) (h : ∀ d ∈ ds, value (glyph d) = some d) :
    readNumeral value base (ds.map glyph) = some (Nat.ofDigits base ds.reverse) := by
  have hempty : (ds.map glyph).isEmpty = false := by simp [hne]
  rw [readNumeral, hempty, mapM_glyph h]
  rfl

theorem ofDigits_zeros (base k : Nat) : Nat.ofDigits base (List.replicate k 0) = 0 := by
  induction k with
  | zero => rfl
  | succ k ih => rw [List.replicate_succ, Nat.ofDigits_cons, ih, Nat.mul_zero]

variable (h : ∀ d < base, value (glyph d) = some d)

include h in
/-- Zeros in front of a numeral do not count. -/
theorem readNumeral_zeros_numeral (hbase : 1 < base) (k n : Nat) :
    readNumeral value base (List.replicate k (glyph 0) ++ numeral glyph base n) = some n := by
  have hvalue : ∀ d ∈ List.replicate k 0 ++ digitsOf base n, value (glyph d) = some d := by
    intro d hd
    cases List.mem_append.mp hd with
    | inl hzero => exact h d (by rw [List.eq_of_mem_replicate hzero]; omega)
    | inr hdigit => exact h d (digitsOf_lt hbase hdigit)
  have hne : List.replicate k 0 ++ digitsOf base n ≠ [] := by simp [digitsOf_ne_nil]
  have hread := readNumeral_glyphs base hne hvalue
  rw [List.map_append, List.map_replicate] at hread
  rw [numeral, hread, List.reverse_append, List.reverse_replicate, Nat.ofDigits_append,
    ofDigits_digitsOf, ofDigits_zeros, Nat.mul_zero, Nat.add_zero]

include h in
/-- Zeros behind a numeral multiply. -/
theorem readNumeral_numeral_zeros (hbase : 1 < base) (k n : Nat) :
    readNumeral value base (numeral glyph base n ++ List.replicate k (glyph 0)) =
      some (base ^ k * n) := by
  have hvalue : ∀ d ∈ digitsOf base n ++ List.replicate k 0, value (glyph d) = some d := by
    intro d hd
    cases List.mem_append.mp hd with
    | inl hdigit => exact h d (digitsOf_lt hbase hdigit)
    | inr hzero => exact h d (by rw [List.eq_of_mem_replicate hzero]; omega)
  have hne : digitsOf base n ++ List.replicate k 0 ≠ [] := by simp [digitsOf_ne_nil]
  have hread := readNumeral_glyphs base hne hvalue
  rw [List.map_append, List.map_replicate] at hread
  rw [numeral, hread, List.reverse_append, List.reverse_replicate, Nat.ofDigits_append,
    ofDigits_digitsOf, ofDigits_zeros, List.length_replicate, Nat.zero_add]

end Reading

end CseOs.Framework.Numeral
