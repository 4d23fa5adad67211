import CseOs.Framework.ExchangeSort
import Mathlib.Data.List.Perm.Basic
import Mathlib.Data.List.Nodup
import Mathlib.Data.List.Range
import Mathlib.Order.Lattice

/-!
# Binary heaps

A heap in the first cells of an array. The children of the cell `i` are the cells `2 * i + 1` and
`2 * i + 2`, and no key is below the one of its parent.
-/

namespace CseOs.Framework

variable {α κ : Type*} [LinearOrder κ] {key : α → κ} {n i j fuel : Nat} {a b : Nat → α}

def parent (i : Nat) : Nat := (i - 1) / 2

/-- The loop that moves the entry of the cell `i` up. -/
def siftUp (key : α → κ) : Nat → Nat → (Nat → α) → Nat → α
  | 0, _, a => a
  | fuel + 1, i, a =>
    if i = 0 then a
    else if key (a (parent i)) ≤ key (a i) then a
    else siftUp key fuel (parent i) (a ∘ Equiv.swap i (parent i))

/-- The cell with the least key among `i` and its children. -/
def leastChild (key : α → κ) (n i : Nat) (a : Nat → α) : Nat :=
  let m := if 2 * i + 1 < n ∧ key (a (2 * i + 1)) < key (a i) then 2 * i + 1 else i
  if 2 * i + 2 < n ∧ key (a (2 * i + 2)) < key (a m) then 2 * i + 2 else m

/-- The loop that moves the entry of the cell `i` down. -/
def siftDown (key : α → κ) (n : Nat) : Nat → Nat → (Nat → α) → Nat → α
  | 0, _, a => a
  | fuel + 1, i, a =>
    let m := leastChild key n i a
    if m = i then a else siftDown key n fuel m (a ∘ Equiv.swap i m)

structure Heap (α : Type*) where
  n : Nat
  cell : Nat → α

namespace Heap

def push (key : α → κ) (h : Heap α) (x : α) : Heap α :=
  { n := h.n + 1, cell := siftUp key h.n h.n (Function.update h.cell h.n x) }

/-- The heap without its first entry. -/
def pop (key : α → κ) (h : Heap α) : Heap α :=
  { n := h.n - 1
    cell := siftDown key (h.n - 1) (h.n - 1) 0
      (if 0 < h.n - 1 then Function.update h.cell 0 (h.cell (h.n - 1)) else h.cell) }

/-- The entries of the heap. -/
def entries (h : Heap α) : List α := (List.range h.n).map h.cell

def Ordered (key : α → κ) (n : Nat) (a : Nat → α) : Prop :=
  ∀ i, 0 < i → i < n → key (a (parent i)) ≤ key (a i)

end Heap

open Heap

theorem parent_lt (h : 0 < i) : parent i < i := by
  rw [parent]
  omega

theorem swap_rearranged (hi : i < n) (hj : j < n) : Rearranged n 0 a (a ∘ Equiv.swap i j) := by
  refine ⟨Equiv.swap i j, fun k hk => ?_, rfl⟩
  exact Equiv.swap_apply_of_ne_of_ne (by omega) (by omega)

theorem Rearranged.perm (h : Rearranged n 0 a b) :
    ((List.range n).map b).Perm ((List.range n).map a) := by
  obtain ⟨σ, hσ, hb⟩ := h
  have hcells : ((List.range n).map σ).Perm (List.range n) := by
    apply (List.perm_ext_iff_of_nodup (List.nodup_range.map σ.injective) List.nodup_range).mpr
    intro k
    rw [List.mem_map, List.mem_range]
    constructor
    · intro hk
      obtain ⟨l, hl, heq⟩ := hk
      rw [← heq]
      exact (perm_range hσ ⟨Nat.zero_le l, List.mem_range.mp hl⟩).2
    · intro hk
      have hinv : ∀ k, k < 0 ∨ n ≤ k → σ.symm k = k := by
        intro k hk
        rw [Equiv.symm_apply_eq, hσ k hk]
      exact ⟨σ.symm k, List.mem_range.mpr (perm_range hinv ⟨Nat.zero_le k, hk⟩).2,
        σ.apply_symm_apply k⟩
  rw [hb, ← List.map_map]
  exact hcells.map a

theorem siftUp_rearranged (hi : i < n) : Rearranged n 0 a (siftUp key fuel i a) := by
  induction fuel generalizing i a with
  | zero => exact Rearranged.refl a
  | succ fuel ih =>
    rw [siftUp]
    split
    · exact Rearranged.refl a
    · split
      · exact Rearranged.refl a
      · next hne _ =>
        have hlt := parent_lt (Nat.pos_of_ne_zero hne)
        exact (swap_rearranged hi (by omega)).trans (ih (by omega))

theorem leastChild_cases (key : α → κ) (n i : Nat) (a : Nat → α) : leastChild key n i a = i ∨
    (leastChild key n i a < n ∧ 0 < leastChild key n i a ∧ parent (leastChild key n i a) = i) := by
  have hcell : ∀ m, m = 2 * i + 1 ∨ m = 2 * i + 2 → m < n → m = i ∨ (m < n ∧ 0 < m ∧ parent m = i) := by
    intro m hm hlt
    right
    rw [parent]
    omega
  rw [leastChild]
  by_cases hleft : 2 * i + 1 < n ∧ key (a (2 * i + 1)) < key (a i)
  · rw [if_pos hleft]
    split
    · next hright => exact hcell _ (.inr rfl) hright.1
    · exact hcell _ (.inl rfl) hleft.1
  · rw [if_neg hleft]
    split
    · next hright => exact hcell _ (.inr rfl) hright.1
    · exact .inl rfl

theorem siftDown_rearranged (hi : i < n) : Rearranged n 0 a (siftDown key n fuel i a) := by
  induction fuel generalizing i a with
  | zero => exact Rearranged.refl a
  | succ fuel ih =>
    rw [siftDown]
    split
    · exact Rearranged.refl a
    · next hne =>
      have hm := ((leastChild_cases key n i a).resolve_left hne).1
      exact (swap_rearranged hi hm).trans (ih hm)

/-- A push adds its entry. -/
theorem Heap.entries_push (h : Heap α) (x : α) : (h.push key x).entries.Perm (x :: h.entries) := by
  have hmoved : Rearranged (h.n + 1) 0 (Function.update h.cell h.n x) (h.push key x).cell :=
    siftUp_rearranged (Nat.lt_succ_self h.n)
  refine hmoved.perm.trans ?_
  rw [List.range_succ, List.map_append, List.map_singleton, Function.update_self, entries]
  have hold : (List.range h.n).map (Function.update h.cell h.n x) = (List.range h.n).map h.cell := by
    apply List.map_congr_left
    intro k hk
    have hk := List.mem_range.mp hk
    exact Function.update_of_ne (Nat.ne_of_lt hk) _ _
  rw [hold]
  exact List.perm_append_comm

/-- A pop takes the first entry away. -/
theorem Heap.entries_pop (key : α → κ) (h : Heap α) (hn : 0 < h.n) :
    h.entries.Perm (h.cell 0 :: (h.pop key).entries) := by
  obtain ⟨m, hm⟩ : ∃ m, h.n = m + 1 := ⟨h.n - 1, by omega⟩
  have hlen : h.n - 1 = m := by omega
  rw [entries, entries, hm]
  show ((List.range (m + 1)).map h.cell).Perm
    (h.cell 0 :: (List.range (h.n - 1)).map (h.pop key).cell)
  rw [hlen]
  by_cases hzero : m = 0
  · rw [hzero]
    exact List.Perm.refl _
  · have hpos : 0 < h.n - 1 := by omega
    have hmoved : Rearranged m 0 (Function.update h.cell 0 (h.cell m)) (h.pop key).cell := by
      have hcell : (h.pop key).cell =
          siftDown key m m 0 (Function.update h.cell 0 (h.cell m)) := by
        rw [pop, if_pos hpos, hlen]
      rw [hcell]
      exact siftDown_rearranged (by omega)
    refine List.Perm.trans ?_ (hmoved.perm.symm.cons _)
    obtain ⟨k, hk⟩ : ∃ k, m = k + 1 := ⟨m - 1, by omega⟩
    have htail : (List.range m).map (Function.update h.cell 0 (h.cell m)) =
        h.cell m :: (List.range k).map fun l => h.cell (l + 1) := by
      rw [hk, List.range_succ_eq_map, List.map_cons, List.map_map, Function.update_self]
      congr 1
    have hall : (List.range (m + 1)).map h.cell =
        h.cell 0 :: ((List.range k).map (fun l => h.cell (l + 1)) ++ [h.cell m]) := by
      rw [List.range_succ, List.map_append, hk, List.range_succ_eq_map, List.map_cons, List.map_map]
      rfl
    rw [htail, hall]
    exact List.perm_append_comm.cons _

/-- Only the cell `i` may be below its parent. -/
structure UpOrdered (key : α → κ) (n i : Nat) (a : Nat → α) : Prop where
  except : ∀ j, 0 < j → j < n → j ≠ i → key (a (parent j)) ≤ key (a j)
  across : 0 < i → ∀ j, 0 < j → j < n → parent j = i → key (a (parent i)) ≤ key (a j)

theorem UpOrdered.swap (h : UpOrdered key n i a) (hi : i < n) (hpos : 0 < i)
    (hbelow : key (a i) < key (a (parent i))) :
    UpOrdered key n (parent i) (a ∘ Equiv.swap i (parent i)) := by
  have hlt := parent_lt hpos
  have hother : ∀ k, k ≠ i → k ≠ parent i → (a ∘ Equiv.swap i (parent i)) k = a k := by
    intro k hki hkp
    rw [Function.comp_apply, Equiv.swap_apply_of_ne_of_ne hki hkp]
  have hati : (a ∘ Equiv.swap i (parent i)) i = a (parent i) := by
    rw [Function.comp_apply, Equiv.swap_apply_left]
  have hatp : (a ∘ Equiv.swap i (parent i)) (parent i) = a i := by
    rw [Function.comp_apply, Equiv.swap_apply_right]
  constructor
  · intro j hj hjn hjp
    by_cases hji : j = i
    · rw [hji, hati, hatp]
      exact hbelow.le
    · rw [hother j hji hjp]
      by_cases hpi : parent j = i
      · rw [hpi, hati]
        exact h.across hpos j hj hjn hpi
      · by_cases hpp : parent j = parent i
        · have := h.except j hj hjn hji
          rw [hpp] at this ⊢
          rw [hatp]
          exact hbelow.le.trans this
        · rw [hother _ hpi hpp]
          exact h.except j hj hjn hji
  · intro hp j hj hjn hjp
    have hpp := parent_lt hp
    have hgrand := h.except (parent i) hp (by omega) (by omega)
    rw [hother (parent (parent i)) (by omega) (by omega)]
    by_cases hji : j = i
    · rw [hji, hati]
      exact hgrand
    · have hjlt := parent_lt hj
      rw [hother j hji (by omega)]
      have := h.except j hj hjn hji
      rw [hjp] at this
      exact hgrand.trans this

theorem siftUp_ordered (h : UpOrdered key n i a) (hi : i < n) (hfuel : i ≤ fuel) :
    Ordered key n (siftUp key fuel i a) := by
  induction fuel generalizing i a with
  | zero =>
    intro j hj hjn
    exact h.except j hj hjn (by omega)
  | succ fuel ih =>
    rw [siftUp]
    split
    · next hzero =>
      intro j hj hjn
      exact h.except j hj hjn (by omega)
    · next hne =>
      have hpos := Nat.pos_of_ne_zero hne
      have hlt := parent_lt hpos
      split
      · next hle =>
        intro j hj hjn
        by_cases hji : j = i
        · rw [hji]
          exact hle
        · exact h.except j hj hjn hji
      · next hno => exact ih (h.swap hi hpos (not_le.mp hno)) (by omega) (by omega)

/-- Only the cell `i` may be above its children. -/
structure DownOrdered (key : α → κ) (n i : Nat) (a : Nat → α) : Prop where
  except : ∀ j, 0 < j → j < n → parent j ≠ i → key (a (parent j)) ≤ key (a j)
  across : 0 < i → ∀ j, 0 < j → j < n → parent j = i → key (a (parent i)) ≤ key (a j)

theorem leastChild_le (key : α → κ) (n i : Nat) (a : Nat → α) :
    key (a (leastChild key n i a)) ≤ key (a i) ∧
      ∀ j, 0 < j → j < n → parent j = i → key (a (leastChild key n i a)) ≤ key (a j) := by
  have hchild : ∀ j, 0 < j → parent j = i → j = 2 * i + 1 ∨ j = 2 * i + 2 := by
    intro j hj hp
    rw [parent] at hp
    omega
  rw [leastChild]
  generalize hm : (if 2 * i + 1 < n ∧ key (a (2 * i + 1)) < key (a i) then 2 * i + 1 else i) = m
  have hleft : key (a m) ≤ key (a i) ∧ (2 * i + 1 < n → key (a m) ≤ key (a (2 * i + 1))) := by
    rw [← hm]
    split
    · next hless => exact ⟨hless.2.le, fun _ => le_refl _⟩
    · next hno => exact ⟨le_refl _, fun hlt => not_lt.mp fun hless => hno ⟨hlt, hless⟩⟩
  split
  · next hless =>
    refine ⟨hless.2.le.trans hleft.1, fun j hj hjn hp => ?_⟩
    cases hchild j hj hp with
    | inl hl =>
      rw [hl] at hjn ⊢
      exact hless.2.le.trans (hleft.2 hjn)
    | inr hr => rw [hr]
  · next hno =>
    refine ⟨hleft.1, fun j hj hjn hp => ?_⟩
    cases hchild j hj hp with
    | inl hl =>
      rw [hl] at hjn ⊢
      exact hleft.2 hjn
    | inr hr =>
      rw [hr] at hjn ⊢
      exact not_lt.mp fun hless => hno ⟨hjn, hless⟩

theorem DownOrdered.swap (h : DownOrdered key n i a) {m : Nat} (hm : m < n) (hpos : 0 < m)
    (hp : parent m = i) (hle : key (a m) ≤ key (a i))
    (hleast : ∀ j, 0 < j → j < n → parent j = i → key (a m) ≤ key (a j)) :
    DownOrdered key n m (a ∘ Equiv.swap i m) := by
  have hlt := parent_lt hpos
  have hother : ∀ k, k ≠ i → k ≠ m → (a ∘ Equiv.swap i m) k = a k := by
    intro k hki hkm
    rw [Function.comp_apply, Equiv.swap_apply_of_ne_of_ne hki hkm]
  have hati : (a ∘ Equiv.swap i m) i = a m := by
    rw [Function.comp_apply, Equiv.swap_apply_left]
  have hatm : (a ∘ Equiv.swap i m) m = a i := by
    rw [Function.comp_apply, Equiv.swap_apply_right]
  constructor
  · intro j hj hjn hjp
    have hjlt := parent_lt hj
    by_cases hpi : parent j = i
    · rw [hpi, hati]
      by_cases hjm : j = m
      · rw [hjm, hatm]
        exact hle
      · rw [hother j (by omega) hjm]
        exact hleast j hj hjn hpi
    · rw [hother (parent j) hpi hjp]
      by_cases hji : j = i
      · rw [hji, hati]
        exact h.across (by omega) m hpos hm hp
      · by_cases hjm : j = m
        · exact absurd (hjm ▸ hp) hpi
        · rw [hother j hji hjm]
          exact h.except j hj hjn hpi
  · intro _ j hj hjn hjp
    have hjlt := parent_lt hj
    rw [hp, hati, hother j (by omega) (by omega)]
    have := h.except j hj hjn (by omega)
    rwa [hjp] at this

theorem siftDown_ordered (h : DownOrdered key n i a) (hfuel : n ≤ i + fuel) :
    Ordered key n (siftDown key n fuel i a) := by
  induction fuel generalizing i a with
  | zero =>
    intro j hj hjn
    have hjlt := parent_lt hj
    exact h.except j hj hjn (by omega)
  | succ fuel ih =>
    obtain ⟨hle, hleast⟩ := leastChild_le key n i a
    have hcases := leastChild_cases key n i a
    rw [siftDown]
    generalize leastChild key n i a = m at *
    split
    · next heq =>
      rw [heq] at hleast
      intro j hj hjn
      by_cases hp : parent j = i
      · rw [hp]
        exact hleast j hj hjn hp
      · exact h.except j hj hjn hp
    · next hne =>
      obtain ⟨hm, hpos, hp⟩ := hcases.resolve_left hne
      have hlt := parent_lt hpos
      exact ih (h.swap hm hpos hp hle hleast) (by omega)

namespace Heap

variable {h : Heap α} {x : α}

theorem Ordered.push (ho : Ordered key h.n h.cell) : Ordered key (h.push key x).n (h.push key x).cell := by
  have hup : UpOrdered key (h.n + 1) h.n (Function.update h.cell h.n x) := by
    constructor
    · intro j hj hjn hne
      have hjlt := parent_lt hj
      rw [Function.update_of_ne (by omega), Function.update_of_ne hne]
      exact ho j hj (by omega)
    · intro _ j hj hjn hp
      have hjlt := parent_lt hj
      omega
  exact siftUp_ordered hup (Nat.lt_succ_self h.n) (Nat.le_refl h.n)

theorem Ordered.pop (ho : Ordered key h.n h.cell) : Ordered key (h.pop key).n (h.pop key).cell := by
  have hdown : DownOrdered key (h.n - 1) 0
      (if 0 < h.n - 1 then Function.update h.cell 0 (h.cell (h.n - 1)) else h.cell) := by
    constructor
    · intro j hj hjn hp
      rw [if_pos (Nat.lt_trans hj hjn), Function.update_of_ne hp, Function.update_of_ne (Nat.ne_of_gt hj)]
      exact ho j hj (by omega)
    · intro hpos
      exact absurd hpos (Nat.lt_irrefl 0)
  have hfuel : h.n - 1 ≤ 0 + (h.n - 1) := by omega
  exact siftDown_ordered hdown hfuel

/-- The first entry has the least key. -/
theorem Ordered.first_le (ho : Ordered key h.n h.cell) : ∀ y ∈ h.entries, key (h.cell 0) ≤ key y := by
  have hcell : ∀ i, i < h.n → key (h.cell 0) ≤ key (h.cell i) := by
    intro i
    induction i using Nat.strong_induction_on with
    | _ i ih =>
      intro hi
      by_cases hzero : i = 0
      · rw [hzero]
      · have hlt := parent_lt (Nat.pos_of_ne_zero hzero)
        exact (ih (parent i) hlt (by omega)).trans (ho i (Nat.pos_of_ne_zero hzero) hi)
  intro y hy
  obtain ⟨i, hi, heq⟩ := List.mem_map.mp hy
  rw [← heq]
  exact hcell i (List.mem_range.mp hi)

end Heap

end CseOs.Framework
