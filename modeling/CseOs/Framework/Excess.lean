import Mathlib.Algebra.BigOperators.Group.Finset.Basic
import Mathlib.Algebra.Order.BigOperators.Group.Finset
import Mathlib.Algebra.BigOperators.Ring.Finset

/-!
# Work above a level

Two ways of holding the same total work are compared by the work they hold above each level.
Serving the smallest item keeps the more uneven one more uneven, whatever item the other serves,
and the more uneven one has the fewer items left.
-/

namespace CseOs.Framework

open Finset

variable {ι : Type*} {A B : Finset ι} {f f' g g' : ι → Nat} {i j : ι} {c : Nat}

/-- The work above the level `c`. -/
def excess (A : Finset ι) (f : ι → Nat) (c : Nat) : Nat := ∑ i ∈ A, (f i - c)

/-- The items above the level `c`. -/
def above (A : Finset ι) (f : ι → Nat) (c : Nat) : Finset ι := A.filter fun i => c < f i

/-- `f` and `g` hold the same work, and `f` has no less of it above any level. -/
structure Uneven (A : Finset ι) (f g : ι → Nat) : Prop where
  total : ∑ i ∈ A, f i = ∑ i ∈ A, g i
  excess_le : ∀ c, excess A g c ≤ excess A f c

theorem excess_zero (A : Finset ι) (f : ι → Nat) : excess A f 0 = ∑ i ∈ A, f i := rfl

theorem excess_succ (A : Finset ι) (f : ι → Nat) (c : Nat) :
    excess A f c = excess A f (c + 1) + (above A f c).card := by
  rw [excess, excess, above, card_filter, ← sum_add_distrib]
  apply sum_congr rfl
  intro i _
  by_cases h : c < f i
  · rw [if_pos h]
    omega
  · rw [if_neg h]
    omega

theorem sum_eq_excess (h : ∀ i ∈ A, 0 < f i → c < f i) :
    ∑ i ∈ A, f i = excess A f c + (above A f c).card * c := by
  rw [excess, above, card_filter, sum_mul, ← sum_add_distrib]
  apply sum_congr rfl
  intro i hi
  by_cases hc : c < f i
  · rw [if_pos hc]
    omega
  · have : ¬ 0 < f i := fun hpos => hc (h i hi hpos)
    rw [if_neg hc]
    omega

theorem excess_lt_sum (hj : j ∈ A) (hpos : 0 < g j) (hle : g j ≤ c) :
    excess A g c + (above A g c).card * c < ∑ i ∈ A, g i := by
  rw [excess, above, card_filter, sum_mul, ← sum_add_distrib]
  apply sum_lt_sum
  · intro i _
    by_cases hc : c < g i
    · rw [if_pos hc]
      omega
    · rw [if_neg hc]
      omega
  · refine ⟨j, hj, ?_⟩
    rw [if_neg (by omega)]
    omega

theorem excess_serve [DecidableEq ι] (hi : i ∈ A) :
    excess A (Function.update f i (f i - 1)) c + (if c < f i then 1 else 0) = excess A f c := by
  rw [excess, excess, ← add_sum_erase A _ hi, ← add_sum_erase A (fun k => f k - c) hi,
    Function.update_self]
  have hrest : ∑ k ∈ A.erase i, (Function.update f i (f i - 1) k - c) =
      ∑ k ∈ A.erase i, (f k - c) := by
    apply sum_congr rfl
    intro k hk
    rw [Function.update_of_ne (ne_of_mem_erase hk)]
  rw [hrest]
  split <;> omega

namespace Uneven

theorem refl (A : Finset ι) (f : ι → Nat) : Uneven A f f := ⟨rfl, fun _ => Nat.le_refl _⟩

theorem congr (h : Uneven A f g) (hf : ∀ i ∈ A, f' i = f i) (hg : ∀ i ∈ A, g' i = g i) :
    Uneven A f' g' := by
  constructor
  · rw [sum_congr rfl hf, sum_congr rfl hg]
    exact h.total
  · intro c
    have hf' : excess A f' c = excess A f c := sum_congr rfl fun i hi => by rw [hf i hi]
    have hg' : excess A g' c = excess A g c := sum_congr rfl fun i hi => by rw [hg i hi]
    rw [hf', hg']
    exact h.excess_le c

/-- New items that are the same on both sides. -/
theorem add (h : Uneven A f g) [DecidableEq ι] (hd : Disjoint A B) (heq : ∀ i ∈ B, f i = g i) :
    Uneven (A ∪ B) f g := by
  constructor
  · rw [sum_union hd, sum_union hd, h.total, sum_congr rfl heq]
  · intro c
    have hB : ∑ i ∈ B, (f i - c) = ∑ i ∈ B, (g i - c) := sum_congr rfl fun i hi => by rw [heq i hi]
    rw [excess, excess, sum_union hd, sum_union hd, hB]
    exact Nat.add_le_add_right (h.excess_le c) _

/-- The more uneven side has no more items left. -/
theorem left_le (h : Uneven A f g) : (above A f 0).card ≤ (above A g 0).card := by
  have hf := excess_succ A f 0
  have hg := excess_succ A g 0
  have := h.excess_le 1
  have := h.total
  rw [excess_zero, Nat.zero_add] at hf hg
  omega

theorem done_iff (h : Uneven A f g) : (∀ i ∈ A, f i = 0) ↔ ∀ i ∈ A, g i = 0 := by
  rw [← sum_eq_zero_iff, h.total, sum_eq_zero_iff]

/-- Serving a smallest item on the more uneven side and any item on the other. -/
theorem serve [DecidableEq ι] (h : Uneven A f g) (hi : i ∈ A) (hfi : 0 < f i)
    (hmin : ∀ k ∈ A, 0 < f k → f i ≤ f k) (hj : j ∈ A) (hgj : 0 < g j) :
    Uneven A (Function.update f i (f i - 1)) (Function.update g j (g j - 1)) := by
  constructor
  · have hf := excess_serve (f := f) (c := 0) hi
    have hg := excess_serve (f := g) (c := 0) hj
    rw [excess_zero, excess_zero, if_pos hfi] at hf
    rw [excess_zero, excess_zero, if_pos hgj] at hg
    have := h.total
    omega
  · intro c
    have hf := excess_serve (f := f) (c := c) hi
    have hg := excess_serve (f := g) (c := c) hj
    have hle := h.excess_le c
    by_cases hcf : c < f i
    · by_cases hcg : c < g j
      · rw [if_pos hcf] at hf
        rw [if_pos hcg] at hg
        omega
      · have hall : ∀ k ∈ A, 0 < f k → c < f k := fun k hk hpos => Nat.lt_of_lt_of_le hcf (hmin k hk hpos)
        have hsumf := sum_eq_excess hall
        have hsumg := excess_lt_sum hj hgj (Nat.le_of_not_lt hcg)
        have hnext := h.excess_le (c + 1)
        have hsuccf := excess_succ A f c
        have hsuccg := excess_succ A g c
        have htotal := h.total
        have hstrict : excess A g c < excess A f c := by
          by_contra hnot
          have heq : excess A g c = excess A f c := by omega
          have hcard : (above A f c).card ≤ (above A g c).card := by omega
          have := Nat.mul_le_mul_right c hcard
          omega
        rw [if_pos hcf] at hf
        rw [if_neg hcg] at hg
        omega
    · rw [if_neg hcf] at hf
      omega

end Uneven

end CseOs.Framework
