import Mathlib.Logic.Equiv.Basic

/-!
# Sorting by exchange

Each cell in turn is compared with all later ones and exchanged with the smaller ones.
-/

namespace CseOs.Framework

variable {α : Type*} {less : α → α → Bool} {n i j k m : Nat} {a b c : Nat → α}

/-- `if (a[j] < a[i]) swap(a[i], a[j]);` -/
def exchange (less : α → α → Bool) (i j : Nat) (a : Nat → α) : Nat → α :=
  if less (a j) (a i) then a ∘ Equiv.swap i j else a

/-- The cell `i` is compared with the next `m` cells. -/
def sortPass (less : α → α → Bool) (i : Nat) : Nat → (Nat → α) → Nat → α
  | 0, a => a
  | m + 1, a => exchange less i (i + 1 + m) (sortPass less i m a)

/-- The first `k` turns of the outer loop over `n` cells. -/
def sortCells (less : α → α → Bool) (n : Nat) : Nat → (Nat → α) → Nat → α
  | 0, a => a
  | k + 1, a => sortPass less k (n - 1 - k) (sortCells less n k a)

def exchangeSort (less : α → α → Bool) (n : Nat) (a : Nat → α) : Nat → α :=
  sortCells less n (n - 1) a

/-- The cells from `i` to `n` have been moved. -/
def Rearranged (n i : Nat) (a b : Nat → α) : Prop :=
  ∃ σ : Equiv.Perm Nat, (∀ k, k < i ∨ n ≤ k → σ k = k) ∧ b = a ∘ σ

theorem Rearranged.refl (a : Nat → α) : Rearranged n i a a := ⟨Equiv.refl Nat, fun _ _ => rfl, rfl⟩

theorem Rearranged.trans (h : Rearranged n i a b) (h' : Rearranged n i b c) : Rearranged n i a c := by
  obtain ⟨σ, hσ, hb⟩ := h
  obtain ⟨τ, hτ, hc⟩ := h'
  refine ⟨τ.trans σ, fun k hk => ?_, ?_⟩
  · rw [Equiv.trans_apply, hτ k hk, hσ k hk]
  · rw [hc, hb]
    rfl

theorem Rearranged.mono (h : Rearranged n i a b) (hle : j ≤ i) : Rearranged n j a b := by
  obtain ⟨σ, hσ, hb⟩ := h
  exact ⟨σ, fun k hk => hσ k (by omega), hb⟩

/-- A permutation that fixes the other cells keeps the cells in their range. -/
theorem perm_range {σ : Equiv.Perm Nat} (h : ∀ k, k < i ∨ n ≤ k → σ k = k) (hk : i ≤ k ∧ k < n) :
    i ≤ σ k ∧ σ k < n := by
  by_contra hno
  have hfix := σ.injective (h (σ k) (by omega))
  omega

theorem exchange_rearranged (hi : i < n) (hj : i ≤ j ∧ j < n) :
    Rearranged n i a (exchange less i j a) := by
  rw [exchange]
  split
  · refine ⟨Equiv.swap i j, fun k hk => ?_, rfl⟩
    exact Equiv.swap_apply_of_ne_of_ne (by omega) (by omega)
  · exact Rearranged.refl a

theorem sortPass_rearranged (hm : i + m < n) : Rearranged n i a (sortPass less i m a) := by
  induction m with
  | zero => exact Rearranged.refl a
  | succ m ih => exact (ih (by omega)).trans (exchange_rearranged (by omega) (by omega))

theorem sortCells_rearranged (hk : k < n) : Rearranged n 0 a (sortCells less n k a) := by
  induction k with
  | zero => exact Rearranged.refl a
  | succ k ih =>
    exact (ih (by omega)).trans ((sortPass_rearranged (by omega)).mono (Nat.zero_le k))

theorem exchangeSort_rearranged : Rearranged n 0 a (exchangeSort less n a) := by
  cases n with
  | zero => exact Rearranged.refl a
  | succ n => exact sortCells_rearranged (Nat.lt_succ_self n)

/-- `less` compares by a linear key. -/
structure Comparison (less : α → α → Bool) : Prop where
  asymm : ∀ {x y}, less x y = true → less y x = false
  trans : ∀ {x y z}, less y x = false → less z y = false → less z x = false

theorem exchange_at_first (h : Comparison less) :
    less (exchange less i j a j) (exchange less i j a i) = false := by
  rw [exchange]
  split
  · next hless =>
    rw [Function.comp_apply, Function.comp_apply, Equiv.swap_apply_left, Equiv.swap_apply_right]
    exact h.asymm hless
  · next hno => simpa using hno

theorem exchange_keeps (h : Comparison less) (hq : k ≠ i) (hold : less (a k) (a i) = false) :
    less (exchange less i j a k) (exchange less i j a i) = false := by
  by_cases hkj : k = j
  · rw [hkj]
    exact exchange_at_first h
  · rw [exchange]
    split
    · next hless =>
      rw [Function.comp_apply, Function.comp_apply, Equiv.swap_apply_left,
        Equiv.swap_apply_of_ne_of_ne hq hkj]
      exact h.trans (h.asymm hless) hold
    · exact hold

theorem sortPass_least (h : Comparison less) (hq : i < k ∧ k ≤ i + m) :
    less (sortPass less i m a k) (sortPass less i m a i) = false := by
  induction m with
  | zero => omega
  | succ m ih =>
    rw [sortPass]
    by_cases hlast : k = i + 1 + m
    · rw [hlast]
      exact exchange_at_first h
    · exact exchange_keeps h (by omega) (ih (by omega))

theorem sortCells_ordered (h : Comparison less) (hk : k < n) :
    ∀ p q, p < k → p < q → q < n → less (sortCells less n k a q) (sortCells less n k a p) = false := by
  induction k with
  | zero => exact fun p q hp => absurd hp (Nat.not_lt_zero p)
  | succ k ih =>
    intro p q hp hpq hq
    by_cases hpk : p = k
    · rw [hpk] at hpq ⊢
      exact sortPass_least h (by omega)
    · have hpass : Rearranged n k (sortCells less n k a)
          (sortPass less k (n - 1 - k) (sortCells less n k a)) := sortPass_rearranged (by omega)
      obtain ⟨σ, hσ, heq⟩ := hpass
      rw [sortCells, heq, Function.comp_apply, Function.comp_apply, hσ p (by omega)]
      apply ih (by omega) p (σ q) (by omega)
      · by_cases hqk : q < k
        · rw [hσ q (.inl hqk)]
          exact hpq
        · have := perm_range hσ (k := q) (by omega)
          omega
      · by_cases hqk : q < k
        · rw [hσ q (.inl hqk)]
          exact hq
        · exact (perm_range hσ (k := q) (by omega)).2

/-- No later cell is less than an earlier one. -/
theorem exchangeSort_ordered (h : Comparison less) {p q : Nat} (hpq : p < q) (hq : q < n) :
    less (exchangeSort less n a q) (exchangeSort less n a p) = false :=
  sortCells_ordered h (by omega) p q (by omega) hpq hq

end CseOs.Framework
